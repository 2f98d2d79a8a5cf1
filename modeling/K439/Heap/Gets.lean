import K439.Heap.Realloc

/-!
# `gets`

`gets` of `user/libc.c` over the heap of the user library. The input is the list of the characters
that `getchar` returns; what `gets` does beside computing is logged.
-/

namespace K439.Heap

namespace User

inductive Event
  | putchar (c : UInt8)
  /-- `realloc(p, newSize)` returned `q`. -/
  | realloc (newSize : Int32) (q : Int)
  /-- A store `p[i]`. -/
  | store (i : Int32)
  deriving DecidableEq, Repr

/-- The number of bytes that the last `realloc` was asked for; the last event comes first. -/
def requested : List Event → Option Int32
  | [] => none
  | .realloc newSize _ :: _ => some newSize
  | _ :: log => requested log

/-- Every store `p[i]` is inside the bytes last requested. -/
def StoresInside : List Event → Prop
  | [] => True
  | .store i :: log =>
    (∃ n, requested log = some n ∧ 0 ≤ i.toInt ∧ i.toInt < n.toInt) ∧ StoresInside log
  | _ :: log => StoresInside log

/-- The local variables of `gets`, and what it has done so far. -/
structure Line where
  sz : Int32
  p : Int
  i : Int32
  log : List Event

def Line.start : Line := ⟨0, 0, 0, []⟩

/-- `if (i >= sz) { … }`, with `true` for `return 0`. -/
def Line.grow (l : Line) : HeapM (Line × Bool) := do
  if l.sz ≤ l.i then
    let sz := l.sz + 10
    let p ← realloc l.p (sz + 1)
    return ({ l with sz := sz, p := p, log := .realloc (sz + 1) p :: l.log }, decide (p = 0))
  else return (l, false)

def Line.putchar (l : Line) (c : UInt8) : Line := { l with log := .putchar c :: l.log }

/-- `p[i] = c` -/
def Line.store (l : Line) (c : UInt8) : HeapM Line := do
  putByte (l.p + l.i.toInt) c.toNat
  return { l with log := .store l.i :: l.log }

/-- The loop, with the result unless it waits for more input. -/
def getsLoop (l : Line) : List UInt8 → HeapM (Option Int × Line)
  | [] => do
    let (l, failed) ← l.grow
    return (if failed then some 0 else none, l)
  | c :: input => do
    let (l, failed) ← l.grow
    if failed then return (some 0, l)
    let l := l.putchar c
    if c = 13 then
      -- `puts("\n")`
      let l ← (l.putchar 10).store 0
      return (some l.p, l)
    let l ← l.store c
    getsLoop { l with i := l.i + 1 } input

def gets (input : List UInt8) : HeapM (Option Int × Line) := getsLoop .start input

/-- The characters are in the buffer, which has the bytes that were asked for. -/
structure Collected (pl : Place) (live : List Int) (typed : List UInt8) (l : Line)
    (h : State) : Prop where
  reachable : Reachable pl ⟨h, l.p :: live⟩
  index : l.i.toInt = typed.length
  index_le : l.i.toInt ≤ l.sz.toInt
  room : l.sz.toInt + 1 ≤ payload h l.p
  bytes : ∀ k (hk : k < typed.length), byteAt h (l.p + k) = typed[k].toNat
  requested : ∃ n, requested l.log = some n ∧ n.toInt = l.sz.toInt + 1
  inside : StoresInside l.log
  granted : ∀ n, .realloc n 0 ∉ l.log

/-- The states at the head of the loop. -/
inductive Reading (pl : Place) (live : List Int) : List UInt8 → Line → State → Prop
  | start : Reachable pl ⟨h, live⟩ → Reading pl live [] .start h
  | collected : Collected pl live typed l h → Reading pl live typed l h

/-- What `gets` returns: a new block with the line. -/
structure Got (pl : Place) (live : List Int) (typed : List UInt8) (r : Int) (h : State) : Prop where
  reachable : Reachable pl ⟨h, r :: live⟩
  room : typed.length + 1 ≤ payload h r
  bytes : ∀ k (hk : k < typed.length), byteAt h (r + k) = typed[k].toNat
  nul : byteAt h (r + typed.length) = 0

variable {pl : Place} {live : List Int} {typed input : List UInt8} {c : UInt8} {l : Line}
  {h : State}
  {s s' : Clients} {bs : List Block} {fl : List Int} {p : Int} {call : Call}

/-! ## The buffer in the heap -/

theorem Reachable.step (hs : Reachable pl s) (hstep : Step s call s') : Reachable pl s' := by
  obtain ⟨h, calls, hr, hrun⟩ := hs
  exact ⟨h, _, hr, hrun.snoc hstep⟩

/-- No payload is as large as the array. -/
theorem Sound.payload_lt (S : Sound s bs fl) (hp : p ∈ s.live) : payload s.heap p < 4 * INTS := by
  obtain ⟨b, hb, -, -, -, hpe⟩ := S.live_block hp
  have hbd := S.heap.bounds hb
  have hlen := S.len
  rw [payload_block S.heap hb hpe]
  omega

/-- The bytes of a payload lie in its ints. -/
theorem Sound.inPayload_byte (S : Sound s bs fl) (hp : p ∈ s.live) {k : Int} (h0 : 0 ≤ k)
    (hk : k < payload s.heap p) : InPayload s.heap p ((p + k - s.heap.base) / 4) := by
  obtain ⟨b, hb, -, -, -, hpe⟩ := S.live_block hp
  rw [payload_block S.heap hb hpe] at hk
  rw [inPayload_iff S.heap hb hpe]
  omega

/-- A byte written to a live payload: a step of the clients. -/
theorem putByte_reachable (hs : Reachable pl ⟨h, live⟩) (hp : p ∈ live) {k x : Int}
    (h0 : 0 ≤ k) (hk : k < payload h p) :
    putByte (p + k) x h = .ok () (h.putByte (p + k) x) ∧
    Reachable pl ⟨h.putByte (p + k) x, live⟩ ∧
      ∀ q ∈ live, payload (h.putByte (p + k) x) q = payload h q := by
  obtain ⟨bs, fl, S⟩ := hs.sound
  have hin := S.inPayload_byte hp h0 hk
  have hstep : Step ⟨h, live⟩ (.store _ _) ⟨h.putByte (p + k) x, live⟩ := .store hp hin
  obtain ⟨b, hb, -, -, -, hpe⟩ := S.live_block hp
  have hbd := S.heap.bounds hb
  have hint := (inPayload_iff S.heap hb hpe).mp hin
  dsimp only at hbd hint
  refine ⟨putByte_eq (by omega) (by omega), hs.step hstep, fun q hq => ?_⟩
  obtain ⟨c, hc, -, -, -, hqe⟩ := S.live_block hq
  exact (payload_block (S.write hp hin).heap hc hqe).trans (payload_block S.heap hc hqe).symm

/-- What a granted `realloc` of null or of a live pointer gives. -/
theorem realloc_spec (hs : Reachable pl ⟨h, live⟩) (hp : p = 0 ∨ p ∈ live) {n : Int32}
    (hz : n ≠ 0) (hn : n.toInt + 3 < 2 ^ 31) :
    ∃ q h', realloc p n h = .ok q h' ∧ (q ≠ 0 → Reachable pl ⟨h', q :: live.erase p⟩ ∧
      n.toInt ≤ payload h' q ∧
      (p ≠ 0 → ∀ k, 0 ≤ k → k < payload h p → k < n.toInt →
        byteAt h' (q + k) = byteAt h (p + k))) := by
  obtain ⟨bs, fl, S⟩ := hs.sound
  have hcover := ints_covers hn
  have hreach {q h'} (hr : realloc p n h = .ok q h') (hq : q ≠ 0) :
      Reachable pl ⟨h', q :: live.erase p⟩ := by
    have hstep : Step ⟨h, live⟩ (.realloc p n) _ :=
      .realloc (hp.imp_right .inr) (fun _ => hn) hr
    rw [if_neg (not_or.mpr ⟨hz, hq⟩)] at hstep
    exact hs.step hstep
  rcases hp with rfl | hp
  · rcases S.malloc hz with ⟨hr, -⟩ | ⟨t, h', bs', fl', hr, S', hreg, G⟩
    · exact ⟨0, h, (realloc_null n).trans hr, fun hq => absurd rfl hq⟩
    · refine ⟨_, h', (realloc_null n).trans hr,
        fun hq => ⟨hreach ((realloc_null n).trans hr) hq, ?_,
        fun h0 => absurd rfl h0⟩⟩
      have hlarge := G.large
      have hpay := payload_block S'.heap G.taken.1 (congrArg (· + 4 * (t.start + 1)) hreg.1.symm)
      dsimp only at hpay ⊢
      omega
  · obtain ⟨b, hb, hk, h0, hl, hpe⟩ := S.live_block hp
    rcases S.realloc hb hk h0 hl hpe hz hn with
      ⟨h', -, -, hr, -⟩ | ⟨q, h', bs', fl', hr, hq, hqp, S', -, hreg,
        ⟨t, ht, hqe, hlarge⟩, hbytes⟩
    · exact ⟨0, h', hr, fun hq => absurd rfl hq⟩
    · refine ⟨q, h', hr,
        fun hq => ⟨hreach hr hq, ?_, fun _ k hk0 hk1 hk2 => hbytes k hk0 ?_ hk2⟩⟩
      · have hpay :=
          payload_block S'.heap ht (hqe.trans (congrArg (· + 4 * (t.start + 1)) hreg.1.symm))
        dsimp only at hpay
        omega
      · have hpay := payload_block S.heap hb hpe
        dsimp only at hpay
        omega

/-! ## One round of the loop -/

theorem toInt_add {a b : Int32} (h0 : 0 ≤ a.toInt) (h1 : a.toInt ≤ 4 * INTS)
    (hb0 : 0 ≤ b.toInt) (hb1 : b.toInt ≤ 11) : (a + b).toInt = a.toInt + b.toInt := by
  unfold INTS at h1
  rw [Int32.toInt_add, Int.bmod_eq_of_le (by omega) (by omega)]

namespace Collected

theorem sz_lt (C : Collected pl live typed l h) : l.sz.toInt + 1 < 4 * INTS := by
  obtain ⟨bs, fl, S⟩ := C.reachable.sound
  exact Int.lt_of_le_of_lt C.room (S.payload_lt List.mem_cons_self)

theorem index_nonneg (C : Collected pl live typed l h) : 0 ≤ l.i.toInt := by
  rw [C.index]
  exact Int.natCast_nonneg _

/-- `p[i] = c` puts `c` behind the characters. -/
theorem store (C : Collected pl live typed l h) (c : UInt8) :
    ∃ h', l.store c h = .ok { l with log := .store l.i :: l.log } h' ∧
      Reachable pl ⟨h', l.p :: live⟩ ∧ payload h' l.p = payload h l.p ∧
      (∀ k (hk : k < typed.length), byteAt h' (l.p + k) = typed[k].toNat) ∧
      byteAt h' (l.p + typed.length) = c.toNat ∧ StoresInside (.store l.i :: l.log) := by
  have h0 := C.index_nonneg
  have hle := C.index_le
  have hroom := C.room
  obtain ⟨hr, hreach, hpay⟩ :=
    putByte_reachable (x := c.toNat) C.reachable List.mem_cons_self h0 (by omega)
  have hc : 0 ≤ (c.toNat : Int) ∧ (c.toNat : Int) < 256 := by
    have := c.toNat_lt
    omega
  obtain ⟨n, hreq, hn⟩ := C.requested
  refine ⟨_, ?_, hreach, hpay _ List.mem_cons_self, fun k hk => ?_, ?_,
    ⟨n, hreq, h0, by omega⟩, C.inside⟩
  · rw [Line.store, bind_ok hr]
    rfl
  · rw [byteAt_putByte hc, if_neg (by rw [C.index]; omega)]
    exact C.bytes k hk
  · rw [byteAt_putByte hc, if_pos (by rw [C.index])]

/-- `p[i++] = c` -/
theorem push (C : Collected pl live typed l h) (hlt : l.i.toInt < l.sz.toInt) (c : UInt8) :
    ∃ h', l.store c h = .ok { l with log := .store l.i :: l.log } h' ∧
      Collected pl live (typed ++ [c]) { l with log := .store l.i :: l.log, i := l.i + 1 } h' := by
  obtain ⟨h', hr, hreach, hpay, hbytes, hlast, hinside⟩ := C.store c
  have hsz := C.sz_lt
  have hindex := C.index
  have hone : (1 : Int32).toInt = 1 := rfl
  have hsucc : (l.i + 1).toInt = l.i.toInt + 1 :=
    toInt_add C.index_nonneg (by omega) (by decide) (by decide)
  refine ⟨h', hr, hreach, ?_, ?_, by rw [hpay]; exact C.room, fun k hk => ?_, C.requested,
    hinside, fun n hn => ?_⟩
  · rw [List.length_append, List.length_singleton]
    push_cast
    omega
  · dsimp only
    omega
  · rw [List.length_append, List.length_singleton] at hk
    rw [List.getElem_append]
    split
    case isTrue hlt' => exact hbytes k hlt'
    case isFalse hge =>
      obtain rfl : k = typed.length := by omega
      simpa using hlast
  · rcases List.mem_cons.mp hn with he | hn
    · cases he
    · exact C.granted n hn

end Collected

/-- The variables after a `realloc` that returned `q`. -/
def Line.grown (l : Line) (q : Int) : Line :=
  { l with sz := l.sz + 10, p := q, log := .realloc (l.sz + 10 + 1) q :: l.log }

theorem grow_full {q : Int} {h' : State} (hfull : l.sz ≤ l.i)
    (hr : realloc l.p (l.sz + 10 + 1) h = .ok q h') :
    l.grow h = .ok (l.grown q, decide (q = 0)) h' := by
  rw [Line.grow, if_pos hfull, bind_ok hr]
  rfl

/-- `grow` leaves room for a character, or its `realloc` has failed. -/
def Grows (pl : Place) (live : List Int) (typed : List UInt8) (l : Line) (h : State) : Prop :=
  ∃ l' h', (l.grow h = .ok (l', true) h' ∧ StoresInside l'.log ∧ ∃ n,
    .realloc n 0 ∈ l'.log) ∨
    (l.grow h = .ok (l', false) h' ∧ Collected pl live typed l' h' ∧ l'.i.toInt < l'.sz.toInt)

theorem grows_start (hs : Reachable pl ⟨h, live⟩) : Grows pl live [] .start h := by
  obtain ⟨q, h', hr, hgot⟩ :=
    realloc_spec (p := 0) (n := 11) hs (.inl rfl) (by decide) (by decide)
  have hrun := grow_full (l := .start) (show Line.start.sz ≤ Line.start.i by decide) hr
  refine ⟨Line.start.grown q, h', ?_⟩
  by_cases hq : q = 0
  · subst hq
    exact .inl ⟨hrun, trivial, 11, List.mem_singleton.mpr rfl⟩
  · rw [decide_eq_false hq] at hrun
    obtain ⟨hreach, hroom, -⟩ := hgot hq
    have hnull : (0 : Int) ∉ live := by
      obtain ⟨bs, fl, S⟩ := hs.sound
      exact fun hm => (S.live_ne hm).1 rfl
    rw [List.erase_of_not_mem hnull] at hreach
    have hlt : (0 : Int32).toInt < (10 : Int32).toInt := by decide
    refine .inr ⟨hrun,
      ⟨hreach, rfl, Int.le_of_lt hlt, hroom, fun k hk => absurd hk (Nat.not_lt_zero k),
      ⟨11, rfl, rfl⟩, trivial, fun n hn => ?_⟩, hlt⟩
    cases List.mem_singleton.mp hn
    exact hq rfl

theorem Collected.grows (C : Collected pl live typed l h) : Grows pl live typed l h := by
  have hsz := C.sz_lt
  have h0 := C.index_nonneg
  have hle := C.index_le
  by_cases hfull : l.sz ≤ l.i
  · have hten : (10 : Int32).toInt = 10 := rfl
    have heleven : (10 + 1 : Int32).toInt = 11 := rfl
    have hsz' : (l.sz + 10).toInt = l.sz.toInt + 10 :=
      toInt_add (by omega) (by omega) (by decide) (by decide)
    have hreq : (l.sz + 10 + 1).toInt = l.sz.toInt + 11 := by
      rw [Int32.add_assoc, toInt_add (by omega) (by omega) (by decide) (by decide), heleven]
    have hz : l.sz + 10 + 1 ≠ 0 := by
      intro he
      have := congrArg Int32.toInt he
      rw [hreq, Int32.toInt_zero] at this
      omega
    obtain ⟨bs, fl, S⟩ := C.reachable.sound
    have hp := S.live_ne (p := l.p) List.mem_cons_self
    obtain ⟨q, h', hr, hgot⟩ := realloc_spec C.reachable (.inr List.mem_cons_self) hz (by
      unfold INTS at hsz
      omega)
    have hrun := grow_full hfull hr
    refine ⟨l.grown q, h', ?_⟩
    by_cases hq : q = 0
    · subst hq
      exact .inl ⟨hrun, C.inside, _, List.mem_cons_self⟩
    · rw [decide_eq_false hq] at hrun
      obtain ⟨hreach, hroom, hkept⟩ := hgot hq
      rw [List.erase_cons_head] at hreach
      have hlt : (l.grown q).i.toInt < (l.grown q).sz.toInt := by
        change l.i.toInt < (l.sz + 10).toInt
        omega
      refine .inr ⟨hrun,
        ⟨hreach, C.index, Int.le_of_lt hlt, ?_, fun k hk => ?_, ⟨_, rfl, ?_⟩, C.inside,
        fun n hn => ?_⟩, hlt⟩
      · change (l.sz + 10).toInt + 1 ≤ payload h' q
        omega
      · have hindex := C.index
        have hold := C.room
        change byteAt h' (q + k) = _
        rw [hkept hp.1 k (by omega) (by omega) (by omega)]
        exact C.bytes k hk
      · change (l.sz + 10 + 1).toInt = (l.sz + 10).toInt + 1
        omega
      · rcases List.mem_cons.mp hn with he | hn
        · cases he
          exact hq rfl
        · exact C.granted n hn
  · refine ⟨l, h, .inr ⟨?_, C, ?_⟩⟩
    · rw [Line.grow, if_neg hfull]
      rfl
    · rw [Int32.le_iff_toInt_le] at hfull
      omega

theorem Reading.grows (R : Reading pl live typed l h) : Grows pl live typed l h := by
  cases R with
  | start hs => exact grows_start hs
  | collected C => exact C.grows

/-- What `gets` prints does not matter for the buffer. -/
theorem Collected.putchar (C : Collected pl live typed l h) (c : UInt8) :
    Collected pl live typed (l.putchar c) h := by
  refine ⟨C.reachable, C.index, C.index_le, C.room, C.bytes, C.requested, C.inside,
    fun n hn => ?_⟩
  rcases List.mem_cons.mp hn with he | hn
  · cases he
  · exact C.granted n hn

/-! ## The loop -/

theorem Reading.loop (R : Reading pl live typed l h) (hin : 13 ∉ input) :
    ∃ r l' h', getsLoop l (input ++ [13]) h = .ok (some r, l') h' ∧ StoresInside l'.log ∧
      ((∀ n, .realloc n 0 ∉ l'.log) → Got pl live (typed ++ input) r h') := by
  induction input generalizing typed l h with
  | nil =>
    obtain ⟨l₁, h₁, ⟨hr₁, hinside, n, hn⟩ | ⟨hr₁, C, -⟩⟩ := R.grows
    · exact ⟨0, l₁, h₁, bind_ok hr₁, hinside, fun hall => absurd hn (hall n)⟩
    · have C' := (C.putchar 13).putchar 10
      obtain ⟨h₂, hr₂, hreach, hpay, hbytes, hnul, hinside⟩ := C'.store 0
      have hrun := bind_ok (f := fun l => pure (some l.p, l)) hr₂
      refine ⟨l₁.p, _, h₂, (bind_ok hr₁).trans hrun, hinside, fun _ => ?_⟩
      rw [List.append_nil]
      have hroom := C'.room
      rw [← hpay] at hroom
      have hle := C.index_le
      have hindex := C.index
      exact ⟨hreach, by rw [← hindex]; exact Int.le_trans (Int.add_le_add_right hle 1) hroom,
        hbytes, hnul⟩
  | cons c input ih =>
    rw [List.mem_cons, not_or] at hin
    obtain ⟨l₁, h₁, ⟨hr₁, hinside, n, hn⟩ | ⟨hr₁, C, hlt⟩⟩ := R.grows
    · exact ⟨0, l₁, h₁, bind_ok hr₁, hinside, fun hall => absurd hn (hall n)⟩
    · obtain ⟨h₂, hr₂, C₂⟩ := (C.putchar c).push hlt c
      obtain ⟨r, l', h', hr, hinside, hgot⟩ := ih (.collected C₂) hin.2
      refine ⟨r, l', h', ?_, hinside, fun hall => ?_⟩
      · rw [List.cons_append, getsLoop, bind_ok hr₁]
        dsimp only
        rw [if_neg Bool.false_ne_true, if_neg (Ne.symm hin.1), bind_ok hr₂]
        exact hr
      · have := hgot hall
        rwa [List.append_assoc] at this

/-- **`gets` collects the line.** Every store is inside the bytes last requested, and when no
`realloc` fails `gets` returns a new block with the characters before the carriage return and a
NUL. -/
theorem gets_collects (pl : Place) (s : Clients) (hs : Reachable pl s) (typed : List UInt8)
    (htyped : 13 ∉ typed) :
    ∃ r l h', gets (typed ++ [13]) s.heap = .ok (some r, l) h' ∧ StoresInside l.log ∧
      ((∀ n, .realloc n 0 ∉ l.log) → Got pl s.live typed r h') :=
  (Reading.start hs).loop htyped

/-- Twelve letters. -/
def letters : List UInt8 := (List.range' 97 12).map UInt8.ofNat

/-- The buffer grows twice. -/
theorem gets_collects_letters :
    ∃ r l h', gets (letters ++ [13]) oneBlockHeap = .ok (some r, l) h' ∧ l.sz = 20 ∧
    StoresInside l.log ∧ Got lowPlace [0x100c] letters r h' := by
  obtain ⟨r, l, h', hr, hinside, hgot⟩ :=
    gets_collects lowPlace _ oneBlockHeap_reachable letters (by decide)
  have hlog : (returns (gets (letters ++ [13])) oneBlockHeap).map
      (fun x => (x.2.sz, x.2.log.any fun e => e matches .realloc _ 0)) = some (20, false) := by
        decide +kernel
  rw [returns, show gets (letters ++ [13]) oneBlockHeap = _ from hr] at hlog
  obtain ⟨hsz, hnone⟩ := Prod.mk.inj (Option.some.inj hlog)
  refine ⟨r, l, h', hr, hsz, hinside, hgot fun n hn => ?_⟩
  have := List.any_eq_false.mp hnone _ hn
  exact this rfl

end User

end K439.Heap
