import K439.Heap.User
import K439.Heap.Requests

/-!
# `realloc` in the user heap

A successful `realloc` moves the bytes and keeps everything else (`realloc_preserves`). A failing
one frees the block all the same (`realloc_failure`). No call of a run leaves the array, except
`realloc` of the pointer that `malloc(0)` returns (`access_inside`).
-/

namespace K439.Heap

namespace User

variable {h h' : State} {bs bs' : List Block} {fl fl' : List Int} {a b c d : Block} {p q : Int}
  {s : Clients}

/-- **`realloc` preserves data.** The bytes are at the new place, the invariant holds with the old
block released, and the other payloads are untouched. -/
theorem realloc_preserves (pl : Place) (s : Clients) (hs : Reachable pl s) (p : Int)
    (hp : p ∈ s.live) (newSize : Int32) (h0 : 0 < newSize.toInt) (h1 : newSize.toInt + 3 < 2 ^ 31)
    (q : Int) (h' : State) (hr : realloc p newSize s.heap = .ok q h') (hq : q ≠ 0) :
    (∀ k, 0 ≤ k → k < min (payload s.heap p) newSize.toInt →
      byteAt h' (q + k) = byteAt s.heap (p + k)) ∧
    (∃ bs fl, Clients.Inv ⟨h', q :: s.live.erase p⟩ bs fl) ∧ p ∉ q :: s.live.erase p ∧
    ∀ r ∈ s.live, r ≠ p → ∀ i, (InPayload h' r i ↔ InPayload s.heap r i) ∧
      (InPayload s.heap r i → h'.array i = s.heap.array i) := by
  obtain ⟨bs, fl, S⟩ := hs.sound
  obtain ⟨b, hb, hk, hb0, hbl, hpe⟩ := S.live_block hp
  have hz : newSize ≠ 0 := by
    rintro rfl
    exact absurd h0 (by decide)
  have hpay : payload s.heap p = 4 * (b.size - 2) := payload_block S.heap hb hpe
  rcases S.realloc hb hk hb0 hbl hpe hz h1 with
    ⟨h'', -, -, hr', -⟩ | ⟨q', h'', bs', fl', hr', -, hqp, S', hkept, hreg, -, hbytes⟩
  · rw [hr] at hr'
    cases hr'
    exact absurd rfl hq
  · rw [hr] at hr'
    cases hr'
    refine ⟨fun k hk0 hk1 => ?_, ⟨bs', fl', S'.toInv⟩, ?_, fun r hrl hrp i => ?_⟩
    · rw [hpay] at hk1
      exact hbytes k hk0 (by omega) (by omega)
    · rw [List.mem_cons, not_or]
      exact ⟨hqp.symm, S.nodup.not_mem_erase⟩
    · obtain ⟨c, hc, hkc, -, -, hce⟩ := S.live_block hrl
      have hcb : c ≠ b := by
        rintro rfl
        exact hrp (hce.trans hpe.symm)
      obtain ⟨hc', hkeep⟩ := hkept c hc hkc hcb
      rw [inPayload_iff S.heap hc hce, inPayload_iff S'.heap hc' (by rw [hreg.1]; exact hce)]
      exact ⟨Iff.rfl, fun hi => hkeep i (by omega) (by omega)⟩

theorem realloc_preserves_oneBlock :
    byteAt (stateAfter (realloc 0x100c 20) oneBlockHeap) 0x101c = byteAt oneBlockHeap 0x100c :=
  (realloc_preserves lowPlace _ oneBlockHeap_reachable 0x100c (by simp) 20 (by decide)
    (by decide) 0x101c _
    (run_of_returns (by decide +kernel)) (by decide)).1 0 (by decide +kernel) (by decide +kernel)

/-- A `free` that releases a block changes a header. -/
theorem array_ne_of_merges (M : Merges h h' bs bs' a b c d) (I : Inv h bs fl) (I' : Inv h' bs' fl')
    (hb : b ∈ bs) (hk : b.kind = .taken) : h'.array ≠ h.array := by
  intro he
  obtain ⟨hd, hdk⟩ := M.merged
  have htag := (I'.tagged d hd (by simp [hdk])).1
  have hdsize := (I'.bounds hd).2.1
  have hbsize := (I.bounds hb).2.1
  rw [Block.tag, if_pos hdk, M.start, he] at htag
  by_cases hka : a.kind = .free
  · -- the header of the left neighbour now says a larger size
    have htaga := (I.tagged a M.left.1 (by simp [hka])).1
    have hstart := M.start
    have hstop := M.stop
    have hright := M.right.2
    have hleft := M.left.2
    have hcsize := (I.bounds M.right.1).2.1
    rw [if_pos hka] at htag hstart
    rw [Block.tag, if_pos hka, htag] at htaga
    split at hstop <;> omega
  · have htagb := (I.tagged b hb (by simp [hk])).1
    rw [if_neg hka] at htag
    rw [Block.tag, if_neg (by simp [hk]), htag] at htagb
    omega

/-- What `realloc` returns when `malloc` has returned a block is that block. -/
theorem returned {m : HeapM PUnit} {r : Int} (hr : (m >>= fun _ => pure q) h = .ok r h') :
    r = q := by
  change EStateM.bind m _ h = _ at hr
  rw [EStateM.bind] at hr
  cases hm : m h with
  | ok u h₁ =>
    rw [hm] at hr
    cases hr
    rfl
  | error e h₁ =>
    rw [hm] at hr
    cases hr

/-- **A failing `realloc` frees the block.** It never returns null with the array and `avail`
unchanged; when no hole is large enough it does to the heap what `free` does. -/
theorem realloc_failure (pl : Place) (s : Clients) (hs : Reachable pl s) (p : Int)
    (hp : p ∈ s.live) (newSize : Int32) (h0 : 0 < newSize.toInt) :
    (¬∃ h', realloc p newSize s.heap = .ok 0 h' ∧ h'.array = s.heap.array ∧
      h'.avail = s.heap.avail) ∧
    ((¬∃ a k, Hole s a k ∧ newSize.toInt ≤ 4 * (k - 2)) → newSize.toInt + 3 < 2 ^ 31 →
      ∃ h', realloc p newSize s.heap = .ok 0 h' ∧ free p s.heap = .ok () h') := by
  obtain ⟨bs, fl, S⟩ := hs.sound
  obtain ⟨b, hb, hk, hb0, hbl, hpe⟩ := S.live_block hp
  have hz : newSize ≠ 0 := by
    rintro rfl
    exact absurd h0 (by decide)
  rcases S.malloc hz with ⟨hr, -⟩ | ⟨t, h₁, bs₁, fl₁, hr, S₁, hreg₁, G⟩
  · obtain ⟨h', bs', fl', hf, S', -, -, a, c, d, M⟩ := S.free hb hk hb0 hbl hpe
    have hrun : realloc p newSize s.heap = .ok 0 h' := by
      rw [S.realloc_eq hb hk hpe hz, bind_ok hr, if_neg (by simp)]
      exact bind_ok hf
    refine ⟨?_, fun _ _ => ⟨h', hrun, hf⟩⟩
    rintro ⟨h'', hr'', harray, -⟩
    rw [hrun] at hr''
    cases hr''
    exact array_ne_of_merges M S.heap S'.heap hb hk harray
  · have htd := S₁.heap.bounds G.taken.1
    have hbase := S.base_pos
    refine ⟨?_, fun hroom hover => ?_⟩
    · rintro ⟨h', hrun, -, -⟩
      rw [S.realloc_eq hb hk hpe hz, bind_ok hr, if_pos (by omega)] at hrun
      have hret := returned ((congrFun (bind_assoc _ _ _) h₁).trans hrun)
      omega
    · obtain ⟨c, hc, hkc, hfits⟩ := G.fits
      have hcover := ints_covers hover
      refine absurd ⟨c.start, c.size, S.hole_iff.mpr ?_, by omega⟩ hroom
      rw [← hkc]
      exact hc

theorem realloc_failure_oneBlock :
    ¬∃ h', realloc 0x100c 0x400000 oneBlockHeap = .ok 0 h' ∧ h'.array = oneBlockHeap.array ∧
      h'.avail = oneBlockHeap.avail :=
  (realloc_failure lowPlace _ oneBlockHeap_reachable 0x100c (by simp) 0x400000 (by decide)).1

/-- `p = malloc(5)`, `realloc(p, 0x400000)`: more than the whole array. -/
theorem realloc_not_atomic :
    ¬∀ (pl : Place) (s : Clients), Reachable pl s → ∀ p ∈ s.live, ∀ newSize :
    Int32, 0 < newSize.toInt → (¬∃ a k, Hole s a k ∧ newSize.toInt ≤ 4 * (k - 2)) →
    ∃ h', realloc p newSize s.heap = .ok 0 h' ∧ h'.array = s.heap.array ∧
    h'.avail = s.heap.avail := by
  intro hall
  obtain ⟨h', hr, harray, -⟩ :=
    hall lowPlace _ oneBlockHeap_reachable 0x100c (by simp) 0x400000 (by decide) (by
    rintro ⟨a, k, H, hk⟩
    have hfirst := H.inside a (Int.le_refl a) (by have := H.pos; omega)
    have hlast := H.inside (a + k - 1) (by have := H.pos; omega) (by omega)
    have hlen : oneBlockHeap.len = 0x100000 := rfl
    have hsize : (0x400000 : Int32).toInt = 0x400000 := rfl
    simp only [Occupied, hlen, not_or] at hfirst hlast
    omega)
  have hrun : realloc 0x100c 0x400000 oneBlockHeap =
      .ok 0 (stateAfter (realloc 0x100c 0x400000) oneBlockHeap) :=
        run_of_returns (by decide +kernel)
  rw [hrun] at hr
  cases hr
  exact absurd (congrFun harray 2) (by decide +kernel)

/-! ## Accesses -/

/-- The call reads or writes `array[i]` for an `i` outside of the array. -/
def Call.Strays (s : Clients) : Call → Prop
  | .malloc bytes => ∃ i h', User.malloc bytes s.heap = .error (.wild i) h'
  | .free p => ∃ i h', User.free p s.heap = .error (.wild i) h'
  | .realloc p newSize => ∃ i h', User.realloc p newSize s.heap = .error (.wild i) h'
  | .store i _ => i < 0 ∨ s.heap.len ≤ i

/-- What a client may call: with null, the pointer of `malloc(0)` or a live pointer, without
overflow in `realloc`, and writes go to live payloads. -/
def Call.Allowed (s : Clients) : Call → Prop
  | .malloc _ => True
  | .free p => MayFree s p
  | .realloc p newSize => MayFree s p ∧ (p ∈ s.live → newSize.toInt + 3 < 2 ^ 31)
  | .store i _ => ∃ p ∈ s.live, InPayload s.heap p i

/-- What returns has not left the array. -/
theorem not_strays {α : Type} {m : HeapM α} {r : α} (hr : m h = .ok r h') :
    ¬∃ i h'', m h = .error (.wild i) h'' := by
  rintro ⟨i, h'', he⟩
  rw [hr] at he
  cases he

theorem Sound.malloc_returns (S : Sound s bs fl) (bytes : Int32) :
    ∃ p h', User.malloc bytes s.heap = .ok p h' := by
  by_cases hz : bytes = 0
  · exact ⟨_, _, by rw [hz, malloc_zero]⟩
  · rcases S.malloc hz with ⟨hr, -⟩ | ⟨t, h', -, -, hr, -⟩
    · exact ⟨_, _, hr⟩
    · exact ⟨_, _, hr⟩

theorem Sound.free_returns (S : Sound s bs fl) (hp : MayFree s p) :
    ∃ h', User.free p s.heap = .ok () h' := by
  by_cases hlive : p ∈ s.live
  · obtain ⟨b, hb, hk, h0, hl, hpe⟩ := S.live_block hlive
    obtain ⟨h', -, -, hr, -⟩ := S.free hb hk h0 hl hpe
    exact ⟨h', hr⟩
  · exact ⟨_, free_idle (hp.idle hlive)⟩

theorem Sound.realloc_returns (S : Sound s bs fl) (hp : MayFree s p) {n : Int32}
    (hn : p ∈ s.live → n.toInt + 3 < 2 ^ 31) (hbase : p = s.heap.base → n = 0) :
    ∃ q h', User.realloc p n s.heap = .ok q h' := by
  by_cases hp0 : p = 0
  · rw [hp0, realloc_null]
    exact S.malloc_returns n
  by_cases hz : n = 0
  · obtain ⟨h', hr⟩ := S.free_returns hp
    rw [hz, realloc_zero hp0, bind_ok hr]
    exact ⟨0, h', rfl⟩
  by_cases hlive : p ∈ s.live
  · obtain ⟨b, hb, hk, h0, hl, hpe⟩ := S.live_block hlive
    rcases S.realloc hb hk h0 hl hpe hz (hn hlive) with ⟨h', -, -, hr, -⟩ |
      ⟨q, h', -, -, hr, -⟩
    · exact ⟨_, _, hr⟩
    · exact ⟨_, _, hr⟩
  · exact absurd (hbase ((hp.idle hlive).resolve_left hp0)) hz

/-- **Accesses stay in the array.** In every state of a run, the one call that leaves the array is
`realloc` of the pointer that `malloc(0)` returns, with a size. -/
theorem access_inside (pl : Place) (s : Clients) (hs : Reachable pl s) (c : Call)
    (hc : c.Allowed s) : c.Strays s ↔ ∃ newSize ≠ 0, c = .realloc s.heap.base newSize := by
  obtain ⟨bs, fl, S⟩ := hs.sound
  cases c with
  | malloc bytes =>
    obtain ⟨p, h', hr⟩ := S.malloc_returns bytes
    refine iff_of_false (not_strays hr) ?_
    rintro ⟨n, -, he⟩
    cases he
  | free p =>
    obtain ⟨h', hr⟩ := S.free_returns hc
    refine iff_of_false (not_strays hr) ?_
    rintro ⟨n, -, he⟩
    cases he
  | realloc p n =>
    constructor
    · intro hstrays
      by_contra hno
      obtain ⟨q, h', hr⟩ := S.realloc_returns hc.1 hc.2 fun hp => by
        by_contra hz
        exact hno ⟨n, hz, by rw [hp]⟩
      exact not_strays hr hstrays
    · rintro ⟨m, hm, he⟩
      cases he
      exact ⟨-1, s.heap, realloc_base S.base_pos hm⟩
  | store i x =>
    obtain ⟨p, hp, hi⟩ := hc
    obtain ⟨b, hb, -, -, -, hpe⟩ := S.live_block hp
    have hin := (inPayload_iff S.heap hb hpe).mp hi
    have hbd := S.heap.bounds hb
    refine iff_of_false ?_ ?_
    · change ¬(i < 0 ∨ s.heap.len ≤ i)
      omega
    · rintro ⟨n, -, he⟩
      cases he

theorem access_inside_oneBlock : ¬(Call.free 0x100c).Strays ⟨oneBlockHeap, [0x100c]⟩ := by
  have hiff :=
    access_inside lowPlace _ oneBlockHeap_reachable (.free 0x100c) (.inr (.inr (by simp)))
  intro hstrays
  obtain ⟨n, -, he⟩ := hiff.mp hstrays
  cases he

/-- `realloc(malloc(0), 5)` reads `array[-1]`. -/
theorem realloc_strays : ¬∀ (pl : Place) (s : Clients), Reachable pl s → ∀ c :
    Call, c.Allowed s → ¬c.Strays s := by
  intro hall
  refine hall lowPlace _ oneBlockHeap_reachable (.realloc 0x1000 5)
    ⟨.inr (.inl rfl), fun _ => by decide⟩ ⟨-1, oneBlockHeap, rfl⟩

end User

end K439.Heap
