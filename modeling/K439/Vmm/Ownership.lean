import K439.Lib.Ledger
import K439.Lib.Linked
import K439.Vmm.Frame

/-!
# Who owns a frame

A frame below `avail` is on the free list, the directory of a live address space, a table of one,
or the target of an entry in the user half of one. Between two steps no other frame exists; inside
an operation a frame is *held*: it was allocated and is not yet entered anywhere, or it was taken
out of a table and is not yet freed. The entries of a table under destruction are *dead* as soon
as the frames behind them are given back, although their words stay. `Inv` says that the ledger of
owners is exact and that the free list is a chain. Each lemma below it is one transfer of a frame.
-/

namespace K439.Vmm

inductive Slot
  | free
  | held
  | dir (pd : UInt32)
  | table (pd : UInt32) (i0 : Nat)
  | page (pd : UInt32) (i0 i1 : Nat)

/-- What the memory does not show. -/
structure Ghost where
  /-- the live address spaces -/
  live : List UInt32
  held : UInt32 → Prop
  dead : Slot → Prop
  free : List UInt32

namespace Ghost

/-- Between two steps no frame is held and no entry is dead. -/
def rest (live free : List UInt32) : Ghost :=
  { live := live, held := fun _ => False, dead := fun _ => False, free := free }

variable (g : Ghost)

/-- The head of the free list, or a new frame, becomes held. -/
def take (p : UInt32) : Ghost :=
  { g with held := fun f => g.held f ∨ f = p, free := g.free.tail }

/-- A held frame goes to the free list. -/
def give (p : UInt32) : Ghost :=
  { g with held := fun f => g.held f ∧ f ≠ p, free := p :: g.free }

def hold (p : UInt32) : Ghost := { g with held := fun f => g.held f ∨ f = p }

def drop (p : UInt32) : Ghost := { g with held := fun f => g.held f ∧ f ≠ p }

def kill (s : Slot) : Ghost := { g with dead := fun s' => g.dead s' ∨ s' = s }

def withLive (live : List UInt32) : Ghost := { g with live := live }

end Ghost

/-- `t` is the table at `i` of the live directory `a`. -/
def OwnTable (m : PhysMem) (g : Ghost) (a : UInt32) (i : Nat) (t : UInt32) : Prop :=
  a ∈ g.live ∧ ¬g.dead (.table a i) ∧ i < 1024 ∧ Entry (m.mem a i) t

def Own (m : PhysMem) (g : Ghost) : Slot → UInt32 → Prop
  | .free, f => f ∈ g.free
  | .held, f => g.held f
  | .dir a, f => a ∈ g.live ∧ f = a
  | .table a i, f => OwnTable m g a i f
  | .page a i j, f =>
    512 ≤ i ∧ j < 1024 ∧ ¬g.dead (.page a i j) ∧ ∃ t, OwnTable m g a i t ∧
    Entry (m.mem t j) f

/-- The ledger reads the directories and the tables of the user half only. -/
theorem Own.congr {m m' : PhysMem} {g : Ghost} (hd : ∀ a ∈ g.live, m'.mem a = m.mem a)
    (ht : ∀ a i t, 512 ≤ i → OwnTable m g a i t → m'.mem t = m.mem t) (s : Slot)
    (f : UInt32) : Own m' g s f ↔ Own m g s f := by
  have htab a i t : OwnTable m' g a i t ↔ OwnTable m g a i t :=
    and_congr_right fun ha => by rw [hd a ha]
  cases s with
  | free | held | dir => exact Iff.rfl
  | table a i => exact htab a i f
  | page a i j =>
    refine and_congr_right fun hi => and_congr_right fun _ => and_congr_right fun _ => ?_
    refine exists_congr fun t => ?_
    rw [htab]
    exact and_congr_right fun h => by rw [ht a i t hi h]

/-- An entry has one frame. -/
theorem Own.page_unique {m : PhysMem} {g : Ghost} {a f f' : UInt32} {i j : Nat}
    (h : Own m g (.page a i j) f) (h' : Own m g (.page a i j) f') : f = f' := by
  obtain ⟨-, -, -, t, ht, hf⟩ := h
  obtain ⟨-, -, -, t', ht', hf'⟩ := h'
  obtain rfl := ht.2.2.2.unique ht'.2.2.2
  exact hf.unique hf'

/-- `p` is handed out after the calls, the latest of which comes first. -/
def Out (p : UInt32) : List Call → Prop
  | [] => False
  | .alloc q :: calls => p = q ∨ Out p calls
  | .free q :: calls => p ≠ q ∧ Out p calls

/-- No call hands out a frame that is out or takes back one that is not. -/
def Legal : List Call → Prop
  | [] => True
  | .alloc q :: calls => ¬Out q calls ∧ Legal calls
  | .free q :: calls => Out q calls ∧ Legal calls

/-- The arguments of `PhysMem::init`: page-aligned bounds below 4 MB, as `kernelMain` has them. -/
structure Region where
  start : UInt32
  limit : UInt32
  start_aligned : Aligned start
  limit_aligned : Aligned limit
  start_pos : 0 < start
  start_le : start ≤ limit
  limit_le : limit ≤ 0x400000

/-- The frames in `[start, avail)`. -/
def Handed (r : Region) (m : PhysMem) (f : UInt32) : Prop :=
  Aligned f ∧ r.start ≤ f ∧ f < m.avail

structure Inv (r : Region) (m : PhysMem) (g : Ghost) : Prop where
  exact : Exact (Own m g) (Handed r m)
  chain : Linked (fun p => m.mem p 0) 0 m.firstFree g.free
  /-- Below 2 GB only the table of the identity mapping exists. -/
  low : ∀ a ∈ g.live, ∀ i, 0 < i → i < 512 → ¬Present (m.mem a i)
  nodup : g.live.Nodup
  limit : m.limit = r.limit
  start_le : r.start ≤ m.avail
  avail_le : m.avail ≤ r.limit
  aligned : Aligned m.avail
  legal : Legal m.calls
  out : ∀ f, Out f m.calls ↔ Handed r m f ∧ f ∉ g.free

namespace PhysMem

variable (m : PhysMem) {m' : PhysMem} {p q : UInt32} {i : Nat} {x : UInt32}

/-- What `alloc` does to the memory. -/
structure Allocated (p : UInt32) (m' : PhysMem) : Prop where
  zero : m'.mem p = fun _ => 0
  same : ∀ q, q ≠ p → m'.mem q = m.mem q
  limit : m'.limit = m.limit
  calls : m'.calls = .alloc p :: m.calls
  /-- from the free list, or a new frame -/
  source : m.firstFree = p ∧ p ≠ 0 ∧ m'.firstFree = m.mem p 0 ∧ m'.avail = m.avail ∨
    m.firstFree = 0 ∧ m'.firstFree = 0 ∧ m.avail = p ∧ p ≠ m.limit ∧
      m'.avail = p + frameSize

theorem allocated (h : m.alloc = some (p, m')) : m.Allocated p m' := by
  unfold alloc at h
  split at h
  next hf =>
    cases h
    exact ⟨Function.update_self .., fun q hq => Function.update_of_ne hq _ _, rfl, rfl,
      .inl ⟨rfl, hf, rfl, rfl⟩⟩
  next hf =>
    have hf := not_not.mp hf
    split at h
    · cases h
    next hl =>
      cases h
      exact ⟨Function.update_self .., fun q hq => Function.update_of_ne hq _ _, rfl, rfl,
        .inr ⟨hf, hf, rfl, hl, rfl⟩⟩

theorem write_mem_ne (h : q ≠ p) : (m.write p i x).mem q = m.mem q := Function.update_of_ne h _ _

theorem write_mem (p : UInt32) (i : Nat) (x : UInt32) (j : Nat) :
    (m.write p i x).mem p j = if j = i then x else m.mem p j := by
  simp [write, Function.update_apply]

theorem free_mem_ne (h : q ≠ p) : (m.free p).mem q = m.mem q := m.write_mem_ne h

end PhysMem

namespace Inv

variable {r : Region} {m m' : PhysMem} {g g' : Ghost} {p a : UInt32} {i j : Nat} {s : Slot}

theorem handed (I : Inv r m g) (h : Own m g s p) : Handed r m p := I.exact.sound s p h

theorem ne_zero (h : Handed r m p) : p ≠ 0 := by
  rintro rfl
  exact absurd (Nat.lt_of_lt_of_le r.start_pos h.2.1) (by decide)

/-- The two frames the ledger reads for an owner are not owned by anyone else. -/
theorem dir_ne (I : Inv r m g) (ha : a ∈ g.live) (h : Own m g s p) (hs : s ≠ .dir a) :
    a ≠ p :=
  I.exact.ne (show Own m g (.dir a) a from ⟨ha, rfl⟩) h hs.symm

theorem table_ne {t : UInt32} (I : Inv r m g) (ht : OwnTable m g a i t) (h : Own m g s p)
    (hs : s ≠ .table a i) : t ≠ p :=
  I.exact.ne (show Own m g (.table a i) t from ht) h hs.symm

/-- Writing to a frame that is no directory and no table of the user half keeps the ledger. -/
theorem own_congr (I : Inv r m g) (h : Own m g s p) (hd : ∀ a, s ≠ .dir a)
    (ht : ∀ a i, 512 ≤ i → s ≠ .table a i) (he : ∀ q, q ≠ p → m'.mem q = m.mem q)
    (s' : Slot) (f : UInt32) : Own m' g s' f ↔ Own m g s' f :=
  Own.congr (fun a ha => he a (I.dir_ne ha h (hd a)))
    (fun a i _ hi hi' => he _ (I.table_ne hi' h (ht a i hi))) s' f

/-- A frame that is neither free nor read by the ledger may change in any way. -/
theorem scribble (I : Inv r m g) (h : Own m g s p) (hf : s ≠ .free) (hd : ∀ a, s ≠ .dir a)
    (ht : ∀ a i, 512 ≤ i → s ≠ .table a i) (v : Nat → UInt32) :
    Inv r { m with mem := Function.update m.mem p v } g := by
  have he : ∀ q, q ≠ p → Function.update m.mem p v q = m.mem q :=
    fun q hq => Function.update_of_ne hq _ _
  refine { I with
    exact := I.exact.congr (I.own_congr h hd ht he) fun _ => Iff.rfl
    chain := ?_
    low := ?_ }
  · refine I.chain.congr fun z hz => ?_
    dsimp only
    rw [he z (I.exact.ne (show Own m g .free z from hz) h hf.symm)]
  · intro a ha i
    dsimp only
    rw [he a (I.dir_ne ha h (hd a))]
    exact I.low a ha i

/-- The next new frame. -/
theorem handed_new (I : Inv r m g) (hl : m.avail ≠ m.limit)
    (hm : m'.avail = m.avail + frameSize) :
    Aligned m'.avail ∧ m'.avail ≤ r.limit ∧ r.start ≤ m'.avail ∧
      ∀ f, Handed r m' f ↔ Handed r m f ∨ f = m.avail := by
  have h1 := I.avail_le
  have h2 := I.start_le
  have h3 := I.aligned
  have h4 := r.limit_aligned
  have h5 := r.limit_le
  rw [I.limit] at hl
  have hlt : m.avail < r.limit := UInt32.lt_of_le_of_ne h1 hl
  simp only [UInt32.le_iff_toNat_le, UInt32.lt_iff_toNat_lt, Aligned, Handed, hm,
    show (0x400000 : UInt32).toNat = 0x400000 from rfl, ← UInt32.toNat_inj] at *
  have hadd : (m.avail + frameSize).toNat = m.avail.toNat + 4096 := by
    rw [UInt32.toNat_add, show frameSize.toNat = 4096 from rfl]
    omega
  rw [hadd]
  refine ⟨by omega, by omega, by omega, fun f => ?_⟩
  omega

theorem handed_congr (h : m'.avail = m.avail) (f : UInt32) : Handed r m' f ↔ Handed r m f := by
  rw [Handed, Handed, h]

/-- `PhysMem::alloc` from the free list -/
theorem alloc_free (I : Inv r m g) (A : m.Allocated p m') (hf : m.firstFree = p) (hp0 : p ≠ 0)
    (hf' : m'.firstFree = m.mem p 0) (ha : m'.avail = m.avail) : Inv r m' (g.take p) := by
  obtain ⟨l, hl⟩ := (hf ▸ I.chain).head_mem hp0
  have hchain := I.chain
  rw [hl, hf] at hchain
  have hnd := List.nodup_cons.mp hchain.nodup
  have hp : Own m g .free p := by rw [Own, hl]; exact List.mem_cons_self
  have hc := I.own_congr hp (fun _ => nofun) (fun _ _ _ => nofun) A.same
  refine {
    exact := ?_, chain := ?_, low := ?_, legal := ?_, out := ?_, nodup := I.nodup
    limit := A.limit.trans I.limit, start_le := ha ▸ I.start_le, avail_le := ha ▸ I.avail_le
    aligned := ha ▸ I.aligned }
  · refine (I.exact.congr hc (handed_congr ha)).move (b := .held) ((hc _ _).mpr hp) fun c y => ?_
    cases c with
    | free =>
      simp only [Own, Ghost.take, hl, List.tail_cons, List.mem_cons, reduceCtorEq, false_and,
        or_false, true_and]
      constructor
      · exact fun hy => ⟨.inr hy, fun hyp => hnd.1 (hyp ▸ hy)⟩
      · exact fun hy => hy.1.resolve_left hy.2
    | held | dir | table | page => simp [Own, OwnTable, Ghost.take]
  · rw [Ghost.take, hl, hf']
    exact hchain.pop fun z hz => congrFun (A.same z hz) 0
  · intro a ha i
    rw [A.same a (I.dir_ne ha hp nofun)]
    exact I.low a ha i
  · rw [A.calls]
    exact ⟨fun ho => ((I.out p).mp ho).2 hp, I.legal⟩
  · intro f
    rw [A.calls, handed_congr ha]
    simp only [Out, I.out f, Ghost.take, hl, List.tail_cons, List.mem_cons, not_or]
    constructor
    · rintro (rfl | h)
      exacts [⟨I.handed hp, hnd.1⟩, ⟨h.1, h.2.2⟩]
    · rintro ⟨h1, h2⟩
      by_cases hfp : f = p
      exacts [.inl hfp, .inr ⟨h1, hfp, h2⟩]

/-- `PhysMem::alloc` of a new frame -/
theorem alloc_new (I : Inv r m g) (A : m.Allocated p m') (hf : m.firstFree = 0)
    (hf' : m'.firstFree = 0) (hp : m.avail = p) (hl : p ≠ m.limit)
    (ha : m'.avail = p + frameSize) : Inv r m' (g.take p) := by
  subst hp
  have hnil : g.free = [] := I.chain.eq_nil_iff.mp hf
  have hp : ¬Handed r m m.avail := fun h => UInt32.lt_irrefl _ h.2.2
  have hd : ∀ a ∈ g.live, a ≠ m.avail := fun a ha hap =>
    hp (hap ▸ I.handed (show Own m g (.dir a) a from ⟨ha, rfl⟩))
  have hc : ∀ s f, Own m' g s f ↔ Own m g s f :=
    Own.congr (fun a ha => A.same a (hd a ha)) fun a i t _ ht =>
      A.same t fun htp => hp (htp ▸ I.handed (show Own m g (.table a i) t from ht))
  obtain ⟨h1, h2, h3, h4⟩ := I.handed_new hl ha
  refine {
    exact := ?_, chain := ?_, low := ?_, legal := ?_, out := ?_, nodup := I.nodup
    limit := A.limit.trans I.limit, start_le := h3, avail_le := h2, aligned := h1 }
  · refine (I.exact.congr hc fun _ => Iff.rfl).add (b := .held) hp h4 fun c y => ?_
    cases c with
    | free | held | dir | table | page => simp [Own, OwnTable, Ghost.take, hnil]
  · rw [Ghost.take, hnil]
    exact hf'
  · intro a ha i
    rw [A.same a (hd a ha)]
    exact I.low a ha i
  · rw [A.calls]
    exact ⟨fun ho => hp ((I.out _).mp ho).1, I.legal⟩
  · intro f
    rw [A.calls, h4]
    simp only [Out, I.out f, Ghost.take, hnil, List.tail_nil, List.not_mem_nil, not_false_eq_true,
      and_true]
    exact or_comm

theorem alloc (I : Inv r m g) (A : m.Allocated p m') : Inv r m' (g.take p) := by
  obtain ⟨hf, hp, hf', ha⟩ | ⟨hf, hf', hp, hl, ha⟩ := A.source
  exacts [I.alloc_free A hf hp hf' ha, I.alloc_new A hf hf' hp hl ha]

/-- `PhysMem::free` of a held frame -/
theorem free (I : Inv r m g) (hp : g.held p) : Inv r (m.free p) (g.give p) := by
  have hown : Own m g .held p := hp
  have he : ∀ q, q ≠ p → (m.free p).mem q = m.mem q := fun q hq => m.free_mem_ne hq
  have hc := I.own_congr hown (fun _ => nofun) (fun _ _ _ => nofun) he
  have hfree : p ∉ g.free := fun hm =>
    absurd (I.exact.unique .free .held p hm hp) nofun
  refine { I with exact := ?_, chain := ?_, low := ?_, legal := ?_, out := ?_ }
  · refine (I.exact.congr hc fun _ => Iff.rfl).move (b := .free) ((hc _ _).mpr hown) fun c y => ?_
    cases c with
    | free => simp [Own, Ghost.give, or_comm]
    | held | dir | table | page => simp [Own, OwnTable, Ghost.give]
  · refine I.chain.push (ne_zero (I.handed hown)) hfree ?_ fun z hz => congrFun (he z hz) 0
    simp [PhysMem.free, PhysMem.write_mem]
  · intro a ha i
    rw [he a (I.dir_ne ha hown nofun)]
    exact I.low a ha i
  · exact ⟨(I.out p).mpr ⟨I.handed hown, hfree⟩, I.legal⟩
  · intro f
    rw [handed_congr (show (m.free p).avail = m.avail from rfl)]
    simp only [PhysMem.free, Out, I.out f, Ghost.give, List.mem_cons, not_or]
    exact and_left_comm

/-- A write to a directory or a table leaves the free list and, below 2 GB, the directories. -/
theorem write (I : Inv r m g) {q x : UInt32} {k : Nat} (h : Own m g s q) (hs : s ≠ .free)
    (hk : ∀ a, s = .dir a → k = 0 ∨ 512 ≤ k)
    (E : Exact (Own (m.write q k x) g') (Handed r m)) (hlive : g'.live = g.live)
    (hfree : g'.free = g.free) : Inv r (m.write q k x) g' := by
  refine { I with exact := E, chain := ?_, low := ?_, nodup := hlive ▸ I.nodup, out := ?_ }
  · rw [hfree]
    refine I.chain.congr fun z hz => ?_
    rw [m.write_mem_ne (I.exact.ne (show Own m g .free z from hz) h hs.symm)]
  · intro a ha i hi hi'
    rw [hlive] at ha
    by_cases hsa : s = .dir a
    · obtain rfl : q = a := by subst hsa; exact h.2
      rw [m.write_mem, if_neg]
      · exact I.low q ha i hi hi'
      · have := hk q hsa
        omega
    · rw [m.write_mem_ne (I.dir_ne ha h hsa)]
      exact I.low a ha i hi hi'
  · rw [hfree]
    exact I.out

/-- A held frame of zeros becomes a directory. -/
theorem addDir (I : Inv r m g) (hp : g.held p) (hz : m.mem p = fun _ => 0) :
    Inv r m ((g.drop p).withLive (p :: g.live)) := by
  have hown : Own m g .held p := hp
  have hnew : p ∉ g.live := fun hm => I.dir_ne hm hown nofun rfl
  have htab b k t :
      OwnTable m ((g.drop p).withLive (p :: g.live)) b k t ↔ OwnTable m g b k t := by
    refine ⟨fun ⟨hb, h⟩ => ⟨(List.mem_cons.mp hb).resolve_left ?_, h⟩,
      fun ⟨hb, h⟩ => ⟨List.mem_cons_of_mem _ hb, h⟩⟩
    rintro rfl
    rw [hz] at h
    exact not_entry_zero t h.2.2
  refine { I with exact := ?_, low := ?_, nodup := List.nodup_cons.mpr ⟨hnew, I.nodup⟩ }
  · refine I.exact.move (b := .dir p) hown fun c y => ?_
    cases c with
    | free | held => simp [Own, Ghost.drop, Ghost.withLive]
    | dir b =>
      simp only [Own, Ghost.withLive, List.mem_cons, reduceCtorEq, false_and, not_false_eq_true,
        and_true, Slot.dir.injEq]
      constructor
      · rintro ⟨rfl | hb, rfl⟩
        exacts [.inr ⟨rfl, rfl⟩, .inl ⟨hb, rfl⟩]
      · rintro (⟨hb, rfl⟩ | ⟨rfl, rfl⟩)
        exacts [⟨.inr hb, rfl⟩, ⟨.inl rfl, rfl⟩]
    | table b k => simpa [Own] using htab b k y
    | page b k l =>
      simp only [Own, htab]
      simp [Ghost.drop, Ghost.withLive]
  · intro b hb i _ _
    rcases List.mem_cons.mp hb with rfl | hb
    · rw [hz]
      simp [Present]
    · exact I.low b hb i ‹_› ‹_›

theorem table_addTable (ha : a ∈ g.live) (hd : ¬g.dead (.table a i)) (hi : i < 1024)
    (hn : ¬Present (m.mem a i)) (hp : Aligned p) (b : UInt32) (k : Nat) (t : UInt32) :
    OwnTable (m.write a i (p ||| 7)) g b k t ↔ OwnTable m g b k t ∨ b = a ∧ k = i ∧
    t = p := by
  by_cases hb : b = a
  · subst hb
    by_cases hk : k = i
    · subst hk
      simp only [OwnTable, m.write_mem, if_true, true_and]
      refine ⟨fun h => .inr (h.2.2.2.unique (entry_table hp)), ?_⟩
      rintro (h | rfl)
      exacts [(hn h.2.2.2.1).elim, ⟨ha, hd, hi, entry_table hp⟩]
    · simp [OwnTable, m.write_mem, hk]
  · simp [OwnTable, m.write_mem_ne hb, hb]

theorem page_addTable (I : Inv r m g) (ha : a ∈ g.live) (hd : ¬g.dead (.table a i))
    (hi : i < 1024) (hn : ¬Present (m.mem a i)) (hp : g.held p) (hz : m.mem p = fun _ => 0)
    (b : UInt32) (k l : Nat) (y : UInt32) :
    Own (m.write a i (p ||| 7)) g (.page b k l) y ↔ Own m g (.page b k l) y := by
  have hown : Own m g .held p := hp
  have htab := table_addTable ha hd hi hn (I.handed hown).1
  refine and_congr_right fun _ => and_congr_right fun _ => and_congr_right fun _ => ?_
  have hne {t} (ht : OwnTable m g b k t) : t ≠ a :=
    (I.dir_ne ha (show Own m g (.table b k) t from ht) nofun).symm
  constructor
  · rintro ⟨t, ht, he⟩
    rcases (htab b k t).mp ht with ht | ⟨-, -, rfl⟩
    · rw [m.write_mem_ne (hne ht)] at he
      exact ⟨t, ht, he⟩
    · rw [m.write_mem_ne (I.dir_ne ha hown nofun).symm, hz] at he
      exact (not_entry_zero y he).elim
  · rintro ⟨t, ht, he⟩
    refine ⟨t, (htab b k t).mpr (.inl ht), ?_⟩
    rwa [m.write_mem_ne (hne ht)]

/-- A held frame of zeros is entered in a directory. -/
theorem addTable (I : Inv r m g) (ha : a ∈ g.live) (hd : ¬g.dead (.table a i)) (hi : i < 1024)
    (hlow : i = 0 ∨ 512 ≤ i) (hn : ¬Present (m.mem a i)) (hp : g.held p)
    (hz : m.mem p = fun _ => 0) : Inv r (m.write a i (p ||| 7)) (g.drop p) := by
  have hown : Own m g .held p := hp
  refine I.write (s := .dir a) ⟨ha, rfl⟩ nofun (fun _ _ => hlow) ?_ rfl rfl
  refine I.exact.move (b := .table a i) hown fun c y => ?_
  cases c with
  | free | held | dir => simp [Own, Ghost.drop]
  | table b k =>
    exact (table_addTable ha hd hi hn (I.handed hown).1 b k y).trans (by simp [Own, and_assoc])
  | page b k l => exact (I.page_addTable ha hd hi hn hp hz b k l y).trans (by simp)

theorem table_write {t e : UInt32} (I : Inv r m g) (ht : OwnTable m g a i t) (b : UInt32) (k : Nat)
    (u : UInt32) : OwnTable (m.write t j e) g b k u ↔ OwnTable m g b k u :=
  and_congr_right fun hb => by
    rw [m.write_mem_ne (I.dir_ne hb (show Own m g (.table a i) t from ht) nofun)]

/-- The entries of the user half after a write to one of its tables. -/
theorem page_write {t e : UInt32} (I : Inv r m g) (ht : OwnTable m g a i t) (b : UInt32) (k l : Nat)
    (y : UInt32) : Own (m.write t j e) g (.page b k l) y ↔
      if b = a ∧ k = i ∧ l = j then
        512 ≤ i ∧ j < 1024 ∧ ¬g.dead (.page a i j) ∧ Entry e y
      else Own m g (.page b k l) y := by
  split
  next h =>
    obtain ⟨rfl, rfl, rfl⟩ := h
    refine and_congr_right fun _ => and_congr_right fun _ => and_congr_right fun _ => ?_
    constructor
    · rintro ⟨u, hu, he⟩
      obtain rfl := ((I.table_write ht _ _ _).mp hu).2.2.2.unique ht.2.2.2
      simpa [m.write_mem] using he
    · exact fun he => ⟨t, (I.table_write ht _ _ _).mpr ht, by simpa [m.write_mem] using he⟩
  next h =>
    refine and_congr_right fun _ => and_congr_right fun _ => and_congr_right fun _ => ?_
    refine exists_congr fun u => ?_
    rw [I.table_write ht]
    refine and_congr_right fun hu => ?_
    by_cases hut : u = t
    · subst hut
      have hs := I.exact.unique (.table b k) (.table a i) u hu ht
      simp only [Slot.table.injEq] at hs
      rw [m.write_mem, if_neg fun hl => h ⟨hs.1, hs.2, hl⟩]
    · rw [m.write_mem_ne hut]

/-- A held frame is entered in a table of the user half. -/
theorem addPage {t e : UInt32} (I : Inv r m g) (ht : OwnTable m g a i t) (hi : 512 ≤ i)
    (hj : j < 1024) (hd : ¬g.dead (.page a i j)) (hn : ¬Present (m.mem t j)) (hp : g.held p)
    (he : Entry e p) : Inv r (m.write t j e) (g.drop p) := by
  have hown : Own m g .held p := hp
  have hnone y : ¬Own m g (.page a i j) y := fun ⟨_, _, _, u, hu, hy⟩ => by
    obtain rfl := hu.2.2.2.unique ht.2.2.2
    exact hn hy.1
  refine I.write (s := .table a i) ht nofun nofun ?_ rfl rfl
  refine I.exact.move (b := .page a i j) hown fun c y => ?_
  cases c with
  | free | held | dir => simp [Own, Ghost.drop]
  | table b k => exact (I.table_write ht b k y).trans (by simp [Own])
  | page b k l =>
    refine (I.page_write ht b k l y).trans ?_
    split
    next h =>
      obtain ⟨rfl, rfl, rfl⟩ := h
      simp only [hnone, false_and, true_and, false_or]
      exact ⟨fun h => h.2.2.2.unique he, fun h => ⟨hi, hj, hd, h ▸ he⟩⟩
    next h => simp [h]

/-- A frame is taken out of a table of the user half. -/
theorem removePage {t : UInt32} (I : Inv r m g) (ht : OwnTable m g a i t)
    (hp : Own m g (.page a i j) p) : Inv r (m.write t j 0) (g.hold p) := by
  refine I.write (s := .table a i) ht nofun nofun ?_ rfl rfl
  refine I.exact.move (b := .held) hp fun c y => ?_
  cases c with
  | free | held | dir => simp [Own, Ghost.hold]
  | table b k => exact (I.table_write ht b k y).trans (by simp [Own])
  | page b k l =>
    refine (I.page_write ht b k l y).trans ?_
    split
    next h =>
      obtain ⟨rfl, rfl, rfl⟩ := h
      simp only [not_entry_zero, and_false, true_and, reduceCtorEq, false_and, or_false, false_iff,
        not_and, not_not]
      exact fun hy => hy.page_unique hp
    next h => simp [h]

/-- The page behind an entry that stays is given up. -/
theorem killPage (I : Inv r m g) (hp : Own m g (.page a i j) p) :
    Inv r m ((g.hold p).kill (.page a i j)) := by
  refine { I with exact := I.exact.move (b := .held) hp fun c y => ?_ }
  cases c with
  | free | held | dir | table => simp [Own, OwnTable, Ghost.hold, Ghost.kill]
  | page b k l =>
    by_cases h : Slot.page b k l = .page a i j
    · simp only [h, true_and, reduceCtorEq, false_and, or_false]
      exact iff_of_false (fun hy => hy.2.2.1 (.inr rfl)) fun hy => hy.2 (hy.1.page_unique hp)
    · simp only [Own, OwnTable, Ghost.hold, Ghost.kill]
      simp [h]

/-- A table with no live page is given up. -/
theorem killTable (I : Inv r m g) (hp : OwnTable m g a i p)
    (hn : ∀ j f, ¬Own m g (.page a i j) f) : Inv r m ((g.hold p).kill (.table a i)) := by
  refine { I with exact := I.exact.move (a := .table a i) (b := .held) hp fun c y => ?_ }
  cases c with
  | free | held | dir => simp [Own, Ghost.hold, Ghost.kill]
  | table b k =>
    by_cases h : Slot.table b k = .table a i
    · simp only [h, true_and, reduceCtorEq, false_and, or_false]
      refine iff_of_false ?_ fun hy => hy.2 ?_
      · rw [Slot.table.injEq] at h
        obtain ⟨rfl, rfl⟩ := h
        exact fun hy => hy.2.1 (.inr rfl)
      · exact hy.1.2.2.2.unique hp.2.2.2
    · simp only [Own, OwnTable, Ghost.hold, Ghost.kill]
      simp [h]
  | page b k l =>
    by_cases h : Slot.table b k = .table a i
    · have h' := h
      rw [Slot.table.injEq] at h'
      obtain ⟨rfl, rfl⟩ := h'
      simp only [hn, false_and, reduceCtorEq, or_false, iff_false]
      exact fun ⟨_, _, _, t, ht, _⟩ => ht.2.1 (.inr rfl)
    · simp only [Own, OwnTable, Ghost.hold, Ghost.kill]
      simp [h]

/-- A directory with no live table is given up. -/
theorem removeDir (I : Inv r m g) (ha : a ∈ g.live) (hn : ∀ i f, ¬OwnTable m g a i f) :
    Inv r m ((g.hold a).withLive (g.live.erase a)) := by
  have htab b k t :
      OwnTable m ((g.hold a).withLive (g.live.erase a)) b k t ↔ OwnTable m g b k t := by
    refine ⟨fun ⟨hb, h⟩ => ⟨List.mem_of_mem_erase hb, h⟩, fun h => ⟨?_, h.2⟩⟩
    have hba : b ≠ a := by
      rintro rfl
      exact hn k t h
    exact (List.mem_erase_of_ne hba).mpr h.1
  refine { I with exact := ?_, low := ?_, nodup := I.nodup.erase a }
  · refine I.exact.move (a := .dir a) (b := .held) ⟨ha, rfl⟩ fun c y => ?_
    cases c with
    | free | held => simp [Own, Ghost.hold, Ghost.withLive]
    | dir b =>
      simp only [Own, Ghost.withLive, I.nodup.mem_erase_iff, Slot.dir.injEq, reduceCtorEq,
        false_and, or_false]
      grind
    | table b k => exact (htab b k y).trans (by simp [Own])
    | page b k l =>
      simp only [Own, htab]
      simp [Ghost.hold, Ghost.withLive]
  · exact fun b hb => I.low b (List.mem_of_mem_erase hb)

end Inv

end K439.Vmm
