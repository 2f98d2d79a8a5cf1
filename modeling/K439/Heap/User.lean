import K439.Heap.Clients
import Mathlib.Algebra.Order.Ring.Int

/-!
# The heap of the user library

`user/heap.c` and the `memcpy` of `user/machine.S`. An int of `array` is read and written byte by
byte in `memcpy`; a byte outside the region is `Fault.wild`. The clients run as in the kernel, with
`realloc` beside `malloc` and `free`: `Clients.Inv` holds of every state they reach.
-/

namespace K439.Heap

namespace User

def INTS : Int := 0x100000

/-- `int ints = ((bytes + 3) / 4) + 2; if (ints < 4) ints = 4;` -/
def ints (bytes : Int32) : Int := max 4 ((bytes + 3) / 4 + 2).toInt

def heap_init : HeapM Unit := initBlocks

def malloc (bytes : Int32) : HeapM Int := do
  if bytes = 0 then return ← getBase
  match ← mallocInts .user (ints bytes) with
  | some p => addr (p + 1)
  | none => return 0

/-- `((((long) p) - ((long) array)) / 4) - 1` -/
def index (p array : Int) : Int := (Int.bmod (p - array) 0x100000000).tdiv 4 - 1

def free (p : Int) : HeapM Unit := do
  if p = 0 then return
  let array ← getBase
  if p = array then return
  freeIndex .user p (index p array)

end User

/-! ## Bytes -/

/-- Byte `j` of an int. -/
def byteOf (x j : Int) : Int := x / 256 ^ j.toNat % 256

/-- The int with `c` for byte `j`. -/
def setByte (x j c : Int) : Int := Int.bmod (x + (c - byteOf x j) * 256 ^ j.toNat) 0x100000000

/-- The byte at an address. -/
def byteAt (h : State) (a : Int) : Int := byteOf (h.array ((a - h.base) / 4)) ((a - h.base) % 4)

def getByte (a : Int) : HeapM Int := do
  let d := a - (← getBase)
  return byteOf (← get (d / 4)) (d % 4)

def putByte (a c : Int) : HeapM Unit := do
  let d := a - (← getBase)
  set (d / 4) (setByte (← get (d / 4)) (d % 4) c)

/-- The loop of `memcpy`, which `%ecx` counts down. -/
def copyBytes (dest src : Int) : Nat → HeapM Unit
  | 0 => pure ()
  | n + 1 => do
    putByte dest (← getByte src)
    copyBytes (dest + 1) (src + 1) n

namespace User

/-- A negative `n` copies nothing. -/
def memcpy (dest src n : Int) : HeapM Unit := copyBytes dest src n.toNat

def realloc (p : Int) (newSize : Int32) : HeapM Int := do
  if p = 0 then return ← malloc newSize
  if newSize = 0 then
    free p
    return 0
  let idx := index p (← getBase)
  let _ ← sanity .user idx
  if !(← isTaken idx) then
    Build.user.complain (.freeingFreeBlock p idx)
    return 0
  let sz := (← size idx) * 4
  let newPtr ← malloc newSize
  if newPtr ≠ 0 then
    memcpy newPtr p (if sz < newSize.toInt then sz else newSize.toInt)
  free p
  return newPtr

inductive Call
  | malloc (bytes : Int32)
  | free (p : Int)
  | realloc (p : Int) (newSize : Int32)
  /-- A client writes `x` to `array[i]`. -/
  | store (i x : Int)

/-- In `realloc` of a live block `newSize + 3` must not overflow, C gives that no meaning. -/
inductive Step : Clients → Call → Clients → Prop
  | malloc : malloc bytes s.heap = .ok p h' →
    Step s (.malloc bytes) ⟨h', if bytes = 0 ∨ p = 0 then s.live else p :: s.live⟩
  | free : MayFree s p → free p s.heap = .ok () h' →
    Step s (.free p) ⟨h', s.live.erase p⟩
  | realloc : MayFree s p → (p ∈ s.live → newSize.toInt + 3 < 2 ^ 31) →
    realloc p newSize s.heap = .ok q h' →
    Step s (.realloc p newSize)
      ⟨h', if newSize = 0 ∨ q = 0 then s.live.erase p else q :: s.live.erase p⟩
  | store : p ∈ s.live → InPayload s.heap p i →
    Step s (.store i x) ⟨{ s.heap with array := Function.update s.heap.array i x }, s.live⟩

/-- Where the static `array` lies. -/
structure Place where
  base : Int
  base_pos : 0 < base
  in_memory : base + 4 * INTS ≤ 2 ^ 32

/-- The state before `heap_init`. -/
def boot (pl : Place) : State := ⟨pl.base, fun _ => 0, INTS, 0⟩

/-- The states that runs of the user heap reach. -/
def Reachable (pl : Place) (s : Clients) : Prop :=
  ∃ h calls, heap_init (boot pl) = .ok () h ∧ Run Step ⟨h, []⟩ calls s

end User

variable {s s' : Clients} {bs bs' : List Block} {fl fl' : List Int} {p q i x j a c : Int}
  {h h' : State} {b t : Block} {call : User.Call}

/-! ## Copying bytes -/

theorem byteOf_range : 0 ≤ byteOf x j ∧ byteOf x j < 256 := by
  unfold byteOf
  omega

/-- Setting a byte sets that byte and no other one. -/
theorem byteOf_setByte (hj : 0 ≤ j ∧ j < 4) (hi : 0 ≤ i ∧ i < 4)
    (hc : 0 ≤ c ∧ c < 256) : byteOf (setByte x j c) i = if i = j then c else byteOf x i := by
  obtain ⟨q, hq⟩ : ∃ q, setByte x j c = x + (c - byteOf x j) * 256 ^ j.toNat +
      4294967296 * q := by
    refine ⟨-Int.bdiv (x + (c - byteOf x j) * 256 ^ j.toNat) 4294967296, ?_⟩
    have hdiv := Int.bmod_add_bdiv (x + (c - byteOf x j) * 256 ^ j.toNat) 4294967296
    rw [setByte]
    push_cast at hdiv
    omega
  obtain rfl | rfl | rfl | rfl : j = 0 ∨ j = 1 ∨ j = 2 ∨ j = 3 := by omega
  all_goals
    obtain rfl | rfl | rfl | rfl : i = 0 ∨ i = 1 ∨ i = 2 ∨ i = 3 := by omega
    all_goals
      rw [hq]
      simp [byteOf]
      omega

/-- The int at index `i` has the addresses from `base + 4 * i` on. -/
theorem getByte_eq (h0 : 0 ≤ a - h.base) (h1 : a - h.base < 4 * h.len) :
    getByte a h = .ok (byteAt h a) h := by
  rw [getByte, bind_ok (show getBase h = .ok h.base h from rfl),
    bind_ok (get_eq (by omega) (by omega))]
  rfl

/-- The state with the byte at `a` set. -/
def State.putByte (h : State) (a c : Int) : State :=
  let d := a - h.base
  { h with array := Function.update h.array (d / 4) (setByte (h.array (d / 4)) (d % 4) c) }

theorem putByte_eq (h0 : 0 ≤ a - h.base) (h1 : a - h.base < 4 * h.len) :
    putByte a c h = .ok () (h.putByte a c) := by
  rw [Heap.putByte, bind_ok (show getBase h = .ok h.base h from rfl),
    bind_ok (get_eq (by omega) (by omega)), set_eq (by omega) (by omega)]
  rfl

theorem byteAt_putByte (hc : 0 ≤ c ∧ c < 256) (x : Int) :
    byteAt (h.putByte a c) x = if x = a then c else byteAt h x := by
  change byteOf (Function.update h.array ((a - h.base) / 4) _ ((x - h.base) / 4))
    ((x - h.base) % 4) = _
  rw [Function.update_apply]
  by_cases hw : (x - h.base) / 4 = (a - h.base) / 4
  · rw [if_pos hw, byteOf_setByte (by omega) (by omega) hc, byteAt, hw]
    by_cases hx : x = a
    · rw [if_pos hx, if_pos (by rw [hx])]
    · rw [if_neg hx, if_neg (by omega)]
  · rw [if_neg hw, if_neg (by rintro rfl; exact hw rfl)]
    rfl

theorem array_putByte (hj : j ≠ (a - h.base) / 4) : (h.putByte a c).array j = h.array j := by
  change Function.update h.array _ _ j = _
  rw [Function.update_of_ne hj]

/-- Copying between ranges of the region that do not overlap: the bytes are there afterwards, and no
int outside of the destination has changed. -/
theorem copyBytes_spec (dest src : Int) {n : Nat} (hd0 : h.base ≤ dest)
    (hd1 : dest + n ≤ h.base + 4 * h.len) (hs0 : h.base ≤ src)
    (hs1 : src + n ≤ h.base + 4 * h.len) (hapart : src + n ≤ dest ∨ dest + n ≤ src) :
    ∃ h', copyBytes dest src n h = .ok () h' ∧ SameRegion h h' ∧ h'.avail = h.avail ∧
      (∀ j, (∀ k : Nat, k < n → j ≠ (dest + k - h.base) / 4) → h'.array j = h.array j) ∧
      (∀ k : Nat, k < n → byteAt h' (dest + k) = byteAt h (src + k)) ∧
      ∀ a, a < dest ∨ dest + n ≤ a → byteAt h' a = byteAt h a := by
  induction n generalizing dest src h with
  | zero =>
    exact ⟨h, rfl, ⟨rfl, rfl⟩, rfl, fun _ _ => rfl, fun k hk => absurd hk (Nat.not_lt_zero k),
      fun _ _ => rfl⟩
  | succ n ih =>
    rw [Nat.cast_succ] at *
    have hc : 0 ≤ byteAt h src ∧ byteAt h src < 256 := byteOf_range
    have hput (x : Int) := byteAt_putByte (h := h) (a := dest) hc x
    obtain ⟨h', hr, hreg, havail, harray, hcopy, hout⟩ :=
      ih (h := h.putByte dest (byteAt h src))
      (dest + 1) (src + 1) (by change h.base ≤ _; omega)
        (by change _ ≤ h.base + 4 * h.len; omega)
      (by change h.base ≤ _; omega) (by change _ ≤ h.base + 4 * h.len; omega) (by omega)
    refine ⟨h', ?_, hreg, havail, fun j hj => ?_, fun k hk => ?_, fun x hx => ?_⟩
    · rw [copyBytes, bind_ok (getByte_eq (by omega) (by omega)),
        bind_ok (putByte_eq (by omega) (by omega)), hr]
    · rw [harray j fun k hk => ?_, array_putByte ?_]
      · have := hj 0 (by omega)
        rwa [Nat.cast_zero, Int.add_zero] at this
      · have := hj (k + 1) (by omega)
        rw [Nat.cast_succ] at this
        change j ≠ (dest + 1 + k - h.base) / 4
        rwa [show dest + 1 + (k : Int) = dest + (k + 1) by omega]
    · cases k with
      | zero =>
        rw [hout _ (by simp), Nat.cast_zero, Int.add_zero, Int.add_zero, hput, if_pos rfl]
      | succ k =>
        have hk' := hcopy k (by omega)
        rw [Nat.cast_succ, show dest + ((k : Int) + 1) = dest + 1 + k by omega, hk',
          show src + ((k : Int) + 1) = src + 1 + k by omega, hput, if_neg (by omega)]
    · rw [hout x (by omega), hput, if_neg (by omega)]

/-- What lies in ints that are kept is kept byte by byte. -/
theorem byteAt_congr (hreg : SameRegion h h')
    (ha : h'.array ((a - h.base) / 4) = h.array ((a - h.base) / 4)) :
    byteAt h' a = byteAt h a := by
  rw [byteAt, hreg.1, ha]
  rfl

namespace User

/-- Without overflow the request is covered, with the two tags. -/
theorem ints_covers {n : Int32} (hn : n.toInt + 3 < 2 ^ 31) : n.toInt ≤ 4 * (ints n - 2) := by
  have hmin : -2147483648 ≤ n.toInt := n.le_toInt
  have h3 : (3 : Int32).toInt = 3 := rfl
  have h4 : (4 : Int32).toInt = 4 := rfl
  have h2 : (2 : Int32).toInt = 2 := rfl
  have hadd : (n + 3).toInt = n.toInt + 3 := by
    rw [Int32.toInt_add, h3, Int.bmod_eq_of_le (by omega) (by omega)]
  have htdiv : (n.toInt + 3).tdiv 4 = (n.toInt + 3) / 4 ∨
      (n.toInt + 3).tdiv 4 = (n.toInt + 3) / 4 + 1 := by
    rw [Int.tdiv_eq_ediv]
    split
    · exact .inl (Int.add_zero _)
    · exact .inr rfl
  have hdiv : ((n + 3) / 4).toInt = (n.toInt + 3).tdiv 4 := by
    rw [Int32.toInt_div, hadd, h4, Int.bmod_eq_of_le (by omega) (by omega)]
  have hsum : ((n + 3) / 4 + 2).toInt = (n.toInt + 3).tdiv 4 + 2 := by
    rw [Int32.toInt_add, hdiv, h2, Int.bmod_eq_of_le (by omega) (by omega)]
  have hmax := Int.le_max_right 4 ((n + 3) / 4 + 2).toInt
  rw [← ints, hsum] at hmax
  omega

theorem four_le_ints (n : Int32) : 4 ≤ ints n := Int.le_max_left _ _

/-- The invariant of the runs of the user heap. -/
structure Sound (s : Clients) (bs : List Block) (fl : List Int) :
    Prop extends Clients.Inv s bs fl where
  len : s.heap.len = INTS
  base_pos : 0 < s.heap.base

theorem Sound.of_region (S : Sound s bs fl) (I : s'.Inv bs' fl')
    (hreg : SameRegion s.heap s'.heap) : Sound s' bs' fl' :=
  ⟨I, hreg.2.trans S.len, by rw [hreg.1]; exact S.base_pos⟩

theorem index_eq (h0 : 0 ≤ i) (h1 : i < INTS) (hp : p = a + 4 * (i + 1)) : index p a = i := by
  unfold INTS at h1
  rw [index, hp, show a + 4 * (i + 1) - a = 4 * (i + 1) by omega,
    Int.bmod_eq_of_le (by omega) (by omega), Int.mul_tdiv_cancel_left _ (by decide)]
  omega

theorem free_header (hlen : h.len = INTS) (hbase : 0 ≤ h.base) (h0 : 0 ≤ i) (h1 : i < h.len)
    (hp : p = h.base + 4 * (i + 1)) : free p h = freeIndex .user p i h := by
  rw [free, if_neg (by omega), bind_ok (show getBase h = .ok h.base h from rfl), if_neg (by omega),
    index_eq h0 (hlen ▸ h1) hp]

/-- `free` of null and of the pointer `malloc(0)` returns does nothing. -/
theorem free_idle (hp : p = 0 ∨ p = h.base) : free p h = .ok () h := by
  by_cases hp0 : p = 0
  · rw [free, if_pos hp0]
    rfl
  · rw [free, if_neg hp0, bind_ok (show getBase h = .ok h.base h from rfl),
      if_pos (hp.resolve_left hp0)]
    rfl

theorem malloc_zero : malloc 0 h = .ok h.base h := rfl

/-- The copy of `realloc`: from the payload of `b`, and the two ints after it, into that of `t`. -/
theorem memcpy_spec (I : Heap.Inv h bs fl) (hb : b ∈ bs) (hl : b.start ≠ h.len - 2)
    (ht : t ∈ bs) (hne : b ≠ t) {m : Int} (hmb : m ≤ b.size * 4)
    (hmt : m ≤ 4 * (t.size - 2)) :
    ∃ h', memcpy (h.base + 4 * (t.start + 1)) (h.base + 4 * (b.start + 1)) m h = .ok () h' ∧
      WritesIn h h' t ∧ ∀ k, 0 ≤ k → k < m →
        byteAt h' (h.base + 4 * (t.start + 1) + k) = byteAt h (h.base + 4 * (b.start + 1) + k) := by
  have hbd := I.bounds hb
  have htd := I.bounds ht
  have hlast : b.start + b.size < h.len := by
    rcases I.tiles.apart hb I.last with he | he | he
    · exact absurd (congrArg Block.start he) hl
    · dsimp only at he
      omega
    · dsimp only at he
      omega
  have hapart : b.start + b.size ≤ t.start ∨ t.start + t.size ≤ b.start :=
    (I.tiles.apart hb ht).resolve_left hne
  rcases lt_or_ge m 0 with hm | hm
  · refine ⟨h, ?_, ⟨⟨rfl, rfl⟩, rfl, fun _ _ => rfl⟩, fun k h0 h1 => by omega⟩
    rw [memcpy, Int.toNat_of_nonpos (by omega)]
    rfl
  · have hcast : (m.toNat : Int) = m := Int.toNat_of_nonneg hm
    obtain ⟨h', hr, hreg, havail, hkept, hcopy, -⟩ := copyBytes_spec (h := h) (n := m.toNat)
      (h.base + 4 * (t.start + 1)) (h.base + 4 * (b.start + 1)) (by omega) (by omega) (by omega)
      (by omega) (by omega)
    refine ⟨h', hr, ⟨hreg, havail, fun j hj => hkept j fun k hk he => hj ?_⟩,
      fun k h0 h1 => ?_⟩
    · omega
    · have := hcopy k.toNat (by omega)
      rwa [Int.toNat_of_nonneg h0] at this

theorem realloc_null (n : Int32) : realloc 0 n h = malloc n h := by
  rw [realloc, if_pos rfl]

theorem realloc_zero (hp : p ≠ 0) : realloc p 0 h = (free p >>= fun _ => pure 0) h := by
  rw [realloc, if_neg hp, if_pos rfl]

/-- The pointer that `malloc(0)` returns has no header. -/
theorem realloc_base (hbase : 0 < h.base) {n : Int32} (hz : n ≠ 0) :
    realloc h.base n h = .error (.wild (-1)) h := by
  have hidx : index h.base h.base = -1 := by
    rw [index, Int.sub_self]
    rfl
  have hsanity : sanity .user (-1) h = .ok (-1) h := rfl
  rw [realloc, if_neg (by omega), if_neg hz, bind_ok (show getBase h = .ok h.base h from rfl), hidx,
    bind_ok hsanity]
  rfl

namespace Sound

/-- `malloc` of some bytes: a new taken block, or null. -/
theorem malloc (S : Sound s bs fl) {bytes : Int32} (hz : bytes ≠ 0) :
    (User.malloc bytes s.heap = .ok 0 s.heap ∧ ∀ b ∈ bs, b.kind = .free →
      b.size < ints bytes) ∨
    ∃ t h' bs' fl', User.malloc bytes s.heap = .ok (s.heap.base + 4 * (t.start + 1)) h' ∧
      Sound ⟨h', (s.heap.base + 4 * (t.start + 1)) :: s.live⟩ bs' fl' ∧
      SameRegion s.heap h' ∧ Gets s.heap h' bs bs' t (ints bytes) := by
  rcases S.reserve (v := .user) (four_le_ints bytes) with ⟨hr, hall⟩ |
    ⟨t, h', bs', fl', hr, I', hreg, G⟩
  · refine .inl ⟨?_, hall⟩
    rw [User.malloc, if_neg hz, bind_ok hr]
    rfl
  · refine .inr ⟨t, h', bs', fl', ?_, S.of_region I' hreg, hreg, G⟩
    rw [User.malloc, if_neg hz, bind_ok hr, ← hreg.1]
    rfl

/-- `free` of a live pointer releases its block. -/
theorem free (S : Sound s bs fl) (hb : b ∈ bs) (hk : b.kind = .taken) (h0 : b.start ≠ 0)
    (hl : b.start ≠ s.heap.len - 2) (hp : p = s.heap.base + 4 * (b.start + 1)) :
    ∃ h' bs' fl', User.free p s.heap = .ok () h' ∧ Sound ⟨h', s.live.erase p⟩ bs' fl' ∧
      SameRegion s.heap h' ∧
      (∀ c ∈ bs, c.kind = .taken → c ≠ b → c ∈ bs' ∧ Keeps s.heap h' c) ∧
      ∃ a c d, Merges s.heap h' bs bs' a b c d := by
  obtain ⟨h', bs', fl', hr, I', hreg, hkept, hmerges⟩ := S.release (v := .user) hb hk h0 hl hp
  have hbd := S.heap.bounds hb
  exact ⟨h', bs', fl', by rw [free_header S.len S.base_nonneg hbd.1 (by omega) hp, hr],
    S.of_region I' hreg, hreg, hkept, hmerges⟩

/-- The first half of `realloc` of a live pointer. -/
theorem realloc_eq (S : Sound s bs fl) (hb : b ∈ bs) (hk : b.kind = .taken)
    (hp : p = s.heap.base + 4 * (b.start + 1)) {n : Int32} (hz : n ≠ 0) :
    realloc p n s.heap = (User.malloc n >>= fun q => do
      if q ≠ 0 then memcpy q p (if b.size * 4 < n.toInt then b.size * 4 else n.toInt)
      User.free p
      return q) s.heap := by
  have hbuilt := S.heap.built b hb
  have hbd := S.heap.bounds hb
  have hbase := S.base_pos
  rw [realloc, if_neg (by omega), if_neg hz,
    bind_ok (show getBase s.heap = .ok s.heap.base s.heap from rfl),
    index_eq hbd.1 (by rw [← S.len]; omega) hp, bind_ok (S.heap.sanity_block hb hbuilt),
    bind_ok (S.heap.isTaken_block hb hbuilt)]
  simp only [hk, decide_true, Bool.not_true, Bool.false_eq_true, if_false]
  rw [bind_ok (S.heap.size_block hb hbuilt)]

/-- `realloc` of a live pointer. Without room the block is released; with room its bytes are in the
new block, the old one is released and the other blocks are as they were. -/
theorem realloc (S : Sound s bs fl) (hb : b ∈ bs) (hk : b.kind = .taken) (h0 : b.start ≠ 0)
    (hl : b.start ≠ s.heap.len - 2) (hp : p = s.heap.base + 4 * (b.start + 1)) {n : Int32}
    (hz : n ≠ 0) (hn : n.toInt + 3 < 2 ^ 31) :
    (∃ h' bs' fl', User.realloc p n s.heap = .ok 0 h' ∧ User.free p s.heap = .ok () h' ∧
      Sound ⟨h', s.live.erase p⟩ bs' fl') ∨
    ∃ q h' bs' fl', User.realloc p n s.heap = .ok q h' ∧ q ≠ 0 ∧ q ≠ p ∧
      Sound ⟨h', q :: s.live.erase p⟩ bs' fl' ∧
      (∀ c ∈ bs, c.kind = .taken → c ≠ b → c ∈ bs' ∧ Keeps s.heap h' c) ∧
      SameRegion s.heap h' ∧
      (∃ t ∈ bs', q = s.heap.base + 4 * (t.start + 1) ∧ ints n ≤ t.size) ∧
      ∀ k, 0 ≤ k → k < 4 * (b.size - 2) → k < n.toInt →
      byteAt h' (q + k) = byteAt s.heap (p + k) := by
  rcases S.malloc hz with ⟨hr, -⟩ | ⟨t, h₁, bs₁, fl₁, hr, S₁, hreg₁, G⟩
  · obtain ⟨h', bs', fl', hf, S', -⟩ := S.free hb hk h0 hl hp
    refine .inl ⟨h', bs', fl', ?_, hf, S'⟩
    rw [S.realloc_eq hb hk hp hz, bind_ok hr, if_neg (by simp)]
    exact bind_ok hf
  · right
    obtain ⟨hb₁, hkeep₁⟩ := G.kept b hb hk
    obtain ⟨ht, hkt⟩ := G.taken
    have hbt : b ≠ t := fun he => G.fresh (he ▸ hb)
    have hlen : b.start ≠ h₁.len - 2 := by rw [hreg₁.2]; exact hl
    have hcover := ints_covers hn
    have hlarge := G.large
    have hbase := S.base_pos
    have htd := S₁.heap.bounds ht
    obtain ⟨h₂, hr₂, W, hcopy⟩ := memcpy_spec S₁.heap hb₁ hlen ht hbt
      (m := if b.size * 4 < n.toInt then b.size * 4 else n.toInt) (by split <;> omega)
        (by split <;> omega)
    have S₂ : Sound ⟨h₂, (s.heap.base + 4 * (t.start + 1)) :: s.live⟩ bs₁ fl₁ :=
      S₁.of_region (S₁.writes ht hkt W) W.region
    have hbase₂ : h₂.base = s.heap.base := W.region.1.trans hreg₁.1
    have hlen₂ : b.start ≠ h₂.len - 2 := by rw [W.region.2]; exact hlen
    obtain ⟨h₃, bs₃, fl₃, hr₃, S₃, hreg₃, hkept₃, -⟩ :=
      S₂.free hb₁ hk h0 hlen₂ (hbase₂ ▸ hp)
    have hstart : t.start ≠ b.start :=
      fun he => hbt (S₁.heap.tiles.eq_of_start hb₁ ht he.symm)
    have hqp : s.heap.base + 4 * (t.start + 1) ≠ p := by omega
    rw [hreg₁.1, ← hp] at hr₂ hcopy
    refine ⟨s.heap.base + 4 * (t.start + 1), h₃, bs₃, fl₃, ?_, by omega, hqp, ?_,
      fun c hc hkc hcb => ?_, (hreg₁.trans W.region).trans hreg₃,
      ⟨t, (hkept₃ t ht hkt hbt.symm).1, rfl, hlarge⟩, fun k hk0 hk1 hk2 => ?_⟩
    · rw [S.realloc_eq hb hk hp hz, bind_ok hr, if_pos (by omega)]
      exact (bind_ok hr₂).trans (bind_ok hr₃)
    · rw [List.erase_cons_tail (by simpa using hqp)] at S₃
      exact S₃
    · obtain ⟨hc₁, hkeep⟩ := G.kept c hc hkc
      obtain ⟨hc₃, hkeep₃⟩ := hkept₃ c hc₁ hkc hcb
      have hct : c ≠ t := fun he => G.fresh (he ▸ hc)
      refine ⟨hc₃, (hkeep.trans fun j hj1 hj2 => ?_).trans hkeep₃⟩
      refine W.kept j fun hj => ?_
      rcases S₁.heap.tiles.apart hc₁ ht with he | he | he
      · exact hct he
      · omega
      · omega
    · have hkeep₃ := (hkept₃ t ht hkt hbt.symm).2
      rw [byteAt_congr hreg₃, hcopy k hk0 (by split <;> omega), byteAt_congr hreg₁]
      · exact hkeep₁ _ (by omega) (by omega)
      · exact hkeep₃ _ (by dsimp only; omega) (by dsimp only; omega)

/-- `malloc` as a step of a run. -/
theorem malloc_step (S : Sound s bs fl) {bytes : Int32} (hr : User.malloc bytes s.heap = .ok p h') :
    ∃ bs' fl', Sound ⟨h', if bytes = 0 ∨ p = 0 then s.live else p :: s.live⟩ bs' fl' := by
  by_cases hz : bytes = 0
  · rw [hz, malloc_zero] at hr
    cases hr
    rw [if_pos (.inl hz)]
    exact ⟨bs, fl, S⟩
  · rcases S.malloc hz with ⟨hr', -⟩ | ⟨t, h'', bs', fl', hr', S', -, G⟩
    · rw [hr] at hr'
      cases hr'
      rw [if_pos (.inr rfl)]
      exact ⟨bs, fl, S⟩
    · rw [hr] at hr'
      cases hr'
      have := S'.heap.bounds G.taken.1
      have := S.base_pos
      rw [if_neg (not_or.mpr ⟨hz, by omega⟩)]
      exact ⟨bs', fl', S'⟩

/-- `free` as a step of a run. -/
theorem free_step (S : Sound s bs fl) (hp : MayFree s p) (hr : User.free p s.heap = .ok () h') :
    ∃ bs' fl', Sound ⟨h', s.live.erase p⟩ bs' fl' := by
  by_cases hlive : p ∈ s.live
  · obtain ⟨b, hb, hk, h0, hl, hpe⟩ := S.live_block hlive
    obtain ⟨h'', bs', fl', hr', S', -⟩ := S.free hb hk h0 hl hpe
    rw [hr] at hr'
    cases hr'
    exact ⟨bs', fl', S'⟩
  · rw [free_idle (hp.idle hlive)] at hr
    cases hr
    rw [List.erase_of_not_mem hlive]
    exact ⟨bs, fl, S⟩

theorem step (S : Sound s bs fl) (hstep : Step s call s') : ∃ bs' fl', Sound s' bs' fl' := by
  cases hstep with
  | malloc hr => exact S.malloc_step hr
  | free hp hr => exact S.free_step hp hr
  | @realloc _ p n q h' hp hn hr =>
    have hnull : (0 : Int) ∉ s.live := fun hm => (S.live_ne hm).1 rfl
    by_cases hp0 : p = 0
    · subst hp0
      rw [List.erase_of_not_mem hnull]
      exact S.malloc_step ((realloc_null n).symm.trans hr)
    by_cases hz : n = 0
    · subst hz
      rw [if_pos (.inl rfl)]
      rw [realloc_zero hp0] at hr
      by_cases hlive : p ∈ s.live
      · obtain ⟨b, hb, hk, h0, hl, hpe⟩ := S.live_block hlive
        obtain ⟨h'', bs', fl', hr', S', -⟩ := S.free hb hk h0 hl hpe
        rw [bind_ok hr'] at hr
        cases hr
        exact ⟨bs', fl', S'⟩
      · rw [bind_ok (free_idle (hp.idle hlive))] at hr
        cases hr
        rw [List.erase_of_not_mem hlive]
        exact ⟨bs, fl, S⟩
    by_cases hlive : p ∈ s.live
    · obtain ⟨b, hb, hk, h0, hl, hpe⟩ := S.live_block hlive
      rcases S.realloc hb hk h0 hl hpe hz (hn hlive) with
        ⟨h'', bs', fl', hr', -, S'⟩ | ⟨q', h'', bs', fl', hr', hq, -, S', -⟩
      · rw [hr] at hr'
        cases hr'
        rw [if_pos (.inr rfl)]
        exact ⟨bs', fl', S'⟩
      · rw [hr] at hr'
        cases hr'
        rw [if_neg (not_or.mpr ⟨hz, hq⟩)]
        exact ⟨bs', fl', S'⟩
    · rw [(hp.idle hlive).resolve_left hp0, realloc_base S.base_pos hz] at hr
      cases hr
  | store hp hi => exact ⟨bs, fl, S.of_region (S.write hp hi) ⟨rfl, rfl⟩⟩

end Sound

theorem heap_init_spec (pl : Place) :
    ∃ h bs fl, heap_init (boot pl) = .ok () h ∧ Sound ⟨h, []⟩ bs fl := by
  obtain ⟨h, hr, hreg, I⟩ := initBlocks_spec (h := boot pl) (show 8 ≤ INTS by decide) rfl
  have hlen : h.len = INTS := hreg.2
  have hbase : h.base = pl.base := hreg.1
  have hpos := pl.base_pos
  have hmem := pl.in_memory
  refine ⟨h, _, _, hr, ⟨I, ?_, ?_, List.nodup_nil, fun p => ?_⟩, hlen, ?_⟩
  · dsimp only
    omega
  · dsimp only
    rw [hbase, hlen]
    exact hmem
  · dsimp only
    constructor
    · intro hp
      cases hp
    · rintro ⟨b, hb, hk, h0, hl, -⟩
      rw [hreg.2] at hl
      simp only [List.mem_cons, List.not_mem_nil, or_false] at hb
      rcases hb with rfl | rfl | rfl
      · exact absurd rfl h0
      · cases hk
      · exact absurd rfl hl
  · dsimp only
    omega

theorem Reachable.sound {pl : Place} (hs : Reachable pl s) : ∃ bs fl, Sound s bs fl := by
  obtain ⟨h, calls, hr, hrun⟩ := hs
  obtain ⟨h', bs, fl, hr', S⟩ := heap_init_spec pl
  rw [hr] at hr'
  cases hr'
  exact hrun.inv (I := fun s => ∃ bs fl, Sound s bs fl)
    (fun _ _ _ ⟨_, _, S⟩ hstep => S.step hstep)
    ⟨bs, fl, S⟩

/-- What a call returns. -/
def returns {α : Type} (m : HeapM α) (h : State) : Option α :=
  match m h with
  | .ok r _ => some r
  | .error _ _ => none

theorem run_of_returns {α : Type} {m : HeapM α} {r : α} (hr : returns m h = some r) :
    m h = .ok r (stateAfter m h) := by
  unfold returns at hr
  unfold stateAfter
  cases hm : m h with
  | ok r' h' =>
    rw [hm] at hr
    cases hr
    rfl
  | error e h' =>
    rw [hm] at hr
    cases hr

/-- The array behind the page that is not mapped. -/
def lowPlace : Place := ⟨0x1000, by decide, by decide⟩

/-- The heap after `heap_init` and `malloc(5)`. -/
def oneBlockHeap : State := stateAfter (malloc 5) (stateAfter heap_init (boot lowPlace))

theorem oneBlockHeap_reachable : Reachable lowPlace ⟨oneBlockHeap, [0x100c]⟩ :=
  ⟨_, [.malloc 5], show heap_init (boot lowPlace) = .ok () _ from rfl,
    .single (.malloc (s := ⟨stateAfter heap_init (boot lowPlace), []⟩)
      (show malloc 5 _ = .ok 0x100c oneBlockHeap from rfl))⟩

end User

end K439.Heap
