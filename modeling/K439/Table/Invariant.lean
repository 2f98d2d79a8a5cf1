import K439.Sched.Lives
import K439.Table.References

/-!
# What holds of the tables

`Proc.Ok` is what holds of one process at each point of its code, and `Rest` what holds of the
system besides the counts. A step of the current process changes its own entry; the child it is
making is the only other one it touches.
-/

namespace K439.Table

open Sched (Pid SameLives)

namespace Pc

/-- Before the first `addWorkingDir` has stored the root directory. -/
def early : Pc → Bool
  | .addWorkingDir true => true
  | .setWorkingDir true => true
  | _ => false

/-- The process has a working directory. -/
def settled : Pc → Bool
  | .new => false
  | .addWorkingDir true => false
  | .setWorkingDir _ => false
  | .clearWorkingDir => false
  | .signal => false
  | .finish => false
  | .exited => false
  | _ => true

/-- The slots that `exit` has emptied. -/
def Emptied : Pc → Nat → Prop
  | .closeAll true i, j => 2 ≤ j ∧ j < i
  | .clearAll true i, j => 2 ≤ j ∧ j < i
  | .closeWorkingDir, j => 2 ≤ j
  | .clearWorkingDir, j => 2 ≤ j
  | .signal, _ => True
  | .finish, _ => True
  | .exited, _ => True
  | _, _ => False

/-- `close` and `closeAll` are not at slot 1, and `join` is at the slot of the child. -/
def Fits : Pc → (Nat → Option Resource) → Prop
  | .wait c i, array => i ≠ 1 ∧ array i = some (.process c)
  | .waited c i, array => i ≠ 1 ∧ array i = some (.process c)
  | .close i _, _ => i ≠ 1
  | .clear i _, _ => i ≠ 1
  | .closeAll _ i, _ => 2 ≤ i
  | .clearAll _ i, _ => 2 ≤ i
  | _, _ => True

/-- The child that is being made. -/
def child : Pc → Option Pid
  | .forkMe c _ => some c
  | .openChild c => some c
  | .startChild c _ => some c
  | _ => none

end Pc

/-- What holds of the process `p`. -/
structure Proc.Ok (p : Pid) (x : Proc) : Prop where
  zero : x.array 0 = none
  beyond : ∀ i, n ≤ i → x.array i = none
  fits : x.pc.Fits x.array
  emptied : ∀ i, x.pc.Emptied i → x.array i = none
  settled : p ≠ 1 → x.pc.settled = true → ∃ k, x.array 1 = some (.directory k)
  idle : p = 1 → x.pc = .user
  boots : x.pc.boots = true → p = 0
  root : x.pc = .refRootDir → x.array 1 = some rootdir

namespace Machine

/-- Nothing has referred to the resource yet. -/
def New (m : Machine) : Resource → Prop
  | .process p => (m.procs p).pc = .new
  | .table p => (m.procs p).pc = .new
  | .semaphore k => m.nextObject ≤ k
  | .file k => m.nextObject ≤ k
  | .directory k => m.nextObject ≤ k

/-- What holds of the child that `p` is making. -/
def Makes (m : Machine) (p : Pid) : Prop :=
  ∀ c, (m.procs p).pc.child = some c → 2 ≤ c ∧ c < m.sched.nextId ∧
    c ∉ m.sched.started ∧ match (m.procs p).pc with
    | .forkMe _ i => (m.procs c).pc = .new ∧ (∀ j, i ≤ j → (m.procs c).array j = none) ∧
      (1 < i → ∃ k, (m.procs c).array 1 = some (.directory k))
    | _ => (m.procs c).pc = .user

structure Rest (m : Machine) : Prop where
  sched : Sched.Inv m.sched
  idle : m.sched.idleProcess = some 1
  started : ∀ p ∈ m.sched.started, (m.procs p).pc ≠ .new
  queue : ∀ p ∈ m.sched.reaperQueue ++ m.sched.reaped, (m.procs p).pc = .exited
  pending : ∀ p q, .unref p ∈ (m.procs q).frames → p ∈ m.sched.reaped
  pendingOne : ∀ p q q', .unref p ∈ (m.procs q).frames → .unref p ∈ (m.procs q').frames →
    q = q'
  pendingOnce : ∀ p q, (m.procs q).frames.count (.unref p) ≤ 1
  destroys : ∀ p i q, .destroy p i ∈ (m.procs q).frames ∨
    .clearDestroyed p i ∈ (m.procs q).frames →
    (m.procs p).pc = .exited
  ok : ∀ p, (m.procs p).Ok p
  old : ∀ p i r, (m.procs p).array i = some r → ¬m.New r ∧ r.type ≠ .TABLE
  fresh : ∀ r, m.New r → m.deleted r = 0
  object : 0 < m.nextObject
  file : ∀ p i q j k, (m.procs p).array i = some (.file k) →
    (m.procs q).array j = some (.file k) →
    p = q ∧ i = j
  makes : ∀ p, m.Makes p
  parent : ∀ p q c, (m.procs p).pc.child = some c → (m.procs q).pc.child = some c → p = q
  unborn : ∀ p, m.sched.nextId ≤ p → (m.procs p).pc = .new ∧ ∀ i, (m.procs p).array i =
    none
  early : (m.procs 0).pc.early = true → m.deleted rootdir = 0 ∧ ∀ p i, (m.procs p).array i ≠
    some rootdir
  room : 4 * n * m.tables ≤ heapSize
  opened : ∀ r ∈ m.opened, r ≠ 0 ∧ r ≠ 1

/-- `r` may be put into a slot when the entry of `z` becomes `x`. -/
structure Storable (m : Machine) (z : Pid) (x : Proc) (r : Resource) : Prop where
  old : ¬m.New r
  type : r.type ≠ .TABLE
  file : ∀ k, r = .file k → ∀ p i, (m.procs p).array i ≠ some r
  early : ((m.setProc z x).procs 0).pc.early = true → r ≠ rootdir

namespace Rest

variable {m m' : Machine} {p q c : Pid} {x : Proc} {r : Resource} {i : Nat}

theorem current_started (I : Rest m) (hq : m.sched.current = some q) : q ∈ m.sched.started :=
  I.sched.current_started hq

theorem not_new (I : Rest m) (hq : m.sched.current = some q) : (m.procs q).pc ≠ .new :=
  I.started q (I.current_started hq)

/-- The current process is nobody's child that is being made. -/
theorem child_ne (I : Rest m) (hq : m.sched.current = some q) (hc : (m.procs p).pc.child = some c) :
    c ≠ q := by
  rintro rfl
  exact (I.makes p c hc).2.2.1 (I.current_started hq)

theorem New.congr (hpc : ∀ p, (m'.procs p).pc = .new ↔ (m.procs p).pc = .new)
    (hn : m'.nextObject = m.nextObject) : m'.New r ↔ m.New r := by
  cases r with
  | process p => exact hpc p
  | table p => exact hpc p
  | semaphore k | file k | directory k => simp only [New, hn]

/-- The entry of `z` becomes `x`, which refers to `r` in slot `i` and to nothing else that is new to
`z`. -/
theorem change (I : Rest m) {z : Pid} (hnew : x.pc = .new ↔ (m.procs z).pc = .new)
    (hex : (m.procs z).pc = .exited → x.pc = .exited) (hf : x.frames = (m.procs z).frames)
    (ha : ∀ j y, x.array j = some y → (m.procs z).array j = some y ∨ j = i ∧ y = r ∧
      m.Storable z x r) (hok : x.Ok z) (hz : z < m.sched.nextId)
    (hmk : ∀ p, (m.setProc z x).Makes p) (hpar : ∀ c, x.pc.child = some c → ∀ p ≠ z,
      (m.procs p).pc.child ≠ some c) (he : x.pc.early = true → (m.procs z).pc.early = true) :
    Rest (m.setProc z x) := by
  have hframes (p : Pid) : ((m.setProc z x).procs p).frames = (m.procs p).frames := by
    rcases decEq p z with hne | rfl
    · rw [setProc_of_ne hne]
    · rw [setProc_self, hf]
  have harr {p : Pid} {j : Nat} {y : Resource} (h : ((m.setProc z x).procs p).array j = some y) :
      (m.procs p).array j = some y ∨ p = z ∧ j = i ∧ y = r ∧ m.Storable z x r := by
    rcases decEq p z with hne | rfl
    · rw [setProc_of_ne hne] at h
      exact .inl h
    · rw [setProc_self] at h
      exact (ha j y h).imp id fun h => ⟨rfl, h⟩
  have hpc (p : Pid) : ((m.setProc z x).procs p).pc = .new ↔ (m.procs p).pc = .new := by
    rcases decEq p z with hne | rfl
    · rw [setProc_of_ne hne]
    · rw [setProc_self, hnew]
  have hexited {p : Pid} (h : (m.procs p).pc = .exited) :
      ((m.setProc z x).procs p).pc = .exited := by
    rcases decEq p z with hne | rfl
    · rwa [setProc_of_ne hne]
    · rw [setProc_self, hex h]
  have hparent {p p' c : Pid} (hne : p ≠ z) (h : ((m.setProc z x).procs p).pc.child = some c)
      (h' : ((m.setProc z x).procs p').pc.child = some c) : p = p' := by
    rw [setProc_of_ne hne] at h
    rcases decEq p' z with hne' | rfl
    · rw [setProc_of_ne hne'] at h'
      exact I.parent p p' c h h'
    · rw [setProc_self] at h'
      exact absurd h (hpar c h' p hne)
  exact {
    sched := I.sched
    idle := I.idle
    started := fun p hp => mt (hpc p).mp (I.started p hp)
    queue := fun p hp => hexited (I.queue p hp)
    pending := fun p q' h => I.pending p q' (hframes q' ▸ h)
    pendingOne := fun p a b h h' => I.pendingOne p a b (hframes a ▸ h) (hframes b ▸ h')
    pendingOnce := fun p q' => by rw [hframes]; exact I.pendingOnce p q'
    destroys := fun p i q' h => hexited (I.destroys p i q' (hframes q' ▸ h))
    ok := fun p => by
      rcases decEq p z with hne | rfl
      · rw [setProc_of_ne hne]
        exact I.ok p
      · rwa [setProc_self]
    old := fun p j y h => by
      rw [New.congr hpc rfl]
      rcases harr h with h | ⟨-, -, rfl, hs⟩
      · exact I.old p j y h
      · exact ⟨hs.old, hs.type⟩
    fresh := fun r h => I.fresh r ((New.congr hpc rfl).mp h)
    object := I.object
    file := fun p j p' j' k h h' => by
      rcases harr h with g | ⟨hp, hj, hr, hs⟩
      · rcases harr h' with g' | ⟨-, -, hr, hs⟩
        · exact I.file p j p' j' k g g'
        · exact absurd (hr ▸ g) (hs.file k hr.symm p j)
      · rcases harr h' with g' | ⟨hp', hj', -, -⟩
        · exact absurd (hr ▸ g') (hs.file k hr.symm p' j')
        · exact ⟨hp.trans hp'.symm, hj.trans hj'.symm⟩
    makes := hmk
    parent := fun p p' c h h' => by
      rcases decEq p z with hne | rfl
      · exact hparent hne h h'
      · rcases decEq p' p with hne' | rfl
        · exact (hparent hne' h' h).symm
        · rfl
    unborn := fun p h => by
      have hne : p ≠ z := fun he => absurd (he ▸ h) (Nat.not_le_of_lt hz)
      rw [setProc_of_ne hne]
      exact I.unborn p h
    early := fun h => by
      have h0 : (m.procs 0).pc.early = true := by
        rcases decEq 0 z with hne | rfl
        · rwa [setProc_of_ne hne] at h
        · rw [setProc_self] at h
          exact he h
      refine ⟨(I.early h0).1, fun p j h' => ?_⟩
      rcases harr h' with h' | ⟨-, -, hr, hs⟩
      · exact (I.early h0).2 p j h'
      · exact hs.early h hr.symm
    room := I.room
    opened := I.opened }

/-- The current process goes on and makes no child. -/
theorem makes_of_none (I : Rest m) (hq : m.sched.current = some q) (hc : x.pc.child = none)
    (p : Pid) : (m.setProc q x).Makes p := by
  intro c h
  rcases decEq p q with hne | rfl
  · rw [setProc_of_ne hne] at h ⊢
    rw [setProc_of_ne (I.child_ne hq h)]
    exact I.makes p c h
  · rw [setProc_self, hc] at h
    cases h

/-- The current process goes on, and may store `r` in slot `i`. -/
theorem store (I : Rest m) (hq : m.sched.current = some q) (hex : (m.procs q).pc ≠ .exited)
    (hf : x.frames = (m.procs q).frames) (hnew : x.pc ≠ .new) (hc : x.pc.child = none)
    (ha : ∀ j y, x.array j = some y → (m.procs q).array j = some y ∨ j = i ∧ y = r ∧
      m.Storable q x r) (hok : x.Ok q) (he : x.pc.early = true → (m.procs q).pc.early = true) :
    Rest (m.setProc q x) := by
  have hz : q < m.sched.nextId := I.sched.fresh q (I.current_started hq)
  refine I.change (iff_of_false hnew (I.not_new hq)) (fun h => absurd h hex) hf ha hok hz
    (I.makes_of_none hq hc) (fun c h => ?_) he
  rw [hc] at h
  cases h

/-- The current process goes on, and its slots stay or become null. -/
theorem setProc (I : Rest m) (hq : m.sched.current = some q) (hex : (m.procs q).pc ≠ .exited)
    (hf : x.frames = (m.procs q).frames) (hnew : x.pc ≠ .new) (hc : x.pc.child = none)
    (ha : ∀ j y, x.array j = some y → (m.procs q).array j = some y) (hok : x.Ok q)
    (he : x.pc.early = true → (m.procs q).pc.early = true) : Rest (m.setProc q x) :=
  I.store (i := 0) (r := rootdir) hq hex hf hnew hc (fun j y h => .inl (ha j y h)) hok he

/-- Other calls on top of what `q` does. -/
theorem setFrames (I : Rest m) {frames : List Frame}
    (hp : ∀ p, .unref p ∈ frames → p ∈ m.sched.reaped ∧ ∀ a ≠ q,
      .unref p ∉ (m.procs a).frames) (ho : ∀ p, frames.count (.unref p) ≤ 1)
    (hd : ∀ p i, .destroy p i ∈ frames ∨ .clearDestroyed p i ∈ frames →
      (m.procs p).pc = .exited) :
    Rest (m.setProc q { m.procs q with frames := frames }) := by
  have hx (p : Pid) : ((m.setProc q { m.procs q with frames := frames }).procs p).pc =
      (m.procs p).pc ∧
      ((m.setProc q { m.procs q with frames := frames }).procs p).array = (m.procs p).array := by
    rcases decEq p q with hne | rfl
    · rw [setProc_of_ne hne]
      exact ⟨rfl, rfl⟩
    · rw [setProc_self]
      exact ⟨rfl, rfl⟩
  have hmem {p a : Pid}
      (h : .unref p ∈ ((m.setProc q { m.procs q with frames := frames }).procs a).frames) :
      a = q ∧ .unref p ∈ frames ∨ a ≠ q ∧ .unref p ∈ (m.procs a).frames := by
    rcases decEq a q with hne | rfl
    · rw [setProc_of_ne hne] at h
      exact .inr ⟨hne, h⟩
    · rw [setProc_self] at h
      exact .inl ⟨rfl, h⟩
  have hN {r : Resource} : (m.setProc q { m.procs q with frames := frames }).New r ↔ m.New r :=
    New.congr (fun p => by rw [(hx p).1]) rfl
  exact {
    sched := I.sched
    idle := I.idle
    started := fun p hp => (hx p).1 ▸ I.started p hp
    queue := fun p hp => (hx p).1 ▸ I.queue p hp
    pending := fun p a h => by
      rcases hmem h with ⟨-, hf⟩ | ⟨-, hf⟩
      · exact (hp p hf).1
      · exact I.pending p a hf
    pendingOne := fun p a b h h' => by
      rcases hmem h with ⟨ha, hf⟩ | ⟨hne, hf⟩
      · rcases hmem h' with ⟨hb, -⟩ | ⟨hne, hf'⟩
        · exact ha.trans hb.symm
        · exact absurd hf' ((hp p hf).2 b hne)
      · rcases hmem h' with ⟨-, hf'⟩ | ⟨-, hf'⟩
        · exact absurd hf ((hp p hf').2 a hne)
        · exact I.pendingOne p a b hf hf'
    pendingOnce := fun p a => by
      rcases decEq a q with hne | rfl
      · rw [setProc_of_ne hne]
        exact I.pendingOnce p a
      · rw [setProc_self]
        exact ho p
    destroys := fun p i a h => by
      rw [(hx p).1]
      rcases decEq a q with hne | rfl
      · rw [setProc_of_ne hne] at h
        exact I.destroys p i a h
      · rw [setProc_self] at h
        exact hd p i h
    ok := fun p => by
      obtain ⟨h1, h2, h3, h4, h5, h6, h7, h8⟩ := I.ok p
      rw [← (hx p).2] at h1 h2 h3 h4 h5 h8
      rw [← (hx p).1] at h3 h4 h5 h6 h7 h8
      exact ⟨h1, h2, h3, h4, h5, h6, h7, h8⟩
    old := fun p i r h => by
      rw [hN]
      exact I.old p i r ((hx p).2 ▸ h)
    fresh := fun r h => I.fresh r (hN.mp h)
    object := I.object
    file := fun p i a j k h h' => I.file p i a j k ((hx p).2 ▸ h) ((hx a).2 ▸ h')
    makes := fun p c h => by
      rw [(hx p).1] at h ⊢
      rw [(hx c).1, (hx c).2]
      exact I.makes p c h
    parent := fun p a c h h' => I.parent p a c ((hx p).1 ▸ h) ((hx a).1 ▸ h')
    unborn := fun p h => by
      rw [(hx p).1, (hx p).2]
      exact I.unborn p h
    early := fun h => by
      rw [(hx 0).1] at h
      exact ⟨(I.early h).1, fun p i h' => (I.early h).2 p i ((hx p).2 ▸ h')⟩
    room := I.room
    opened := I.opened }

/-- Fewer calls of `Resource::unref(kill)` on top of what `q` does. -/
theorem setFrames_le (I : Rest m) {frames : List Frame}
    (hp : ∀ p, frames.count (.unref p) ≤ (m.procs q).frames.count (.unref p))
    (hd : ∀ p i, .destroy p i ∈ frames ∨ .clearDestroyed p i ∈ frames →
      (m.procs p).pc = .exited) :
    Rest (m.setProc q { m.procs q with frames := frames }) := by
  refine I.setFrames (fun p h => ?_) (fun p => (hp p).trans (I.pendingOnce p q)) hd
  have hq : .unref p ∈ (m.procs q).frames :=
    List.count_pos_iff.mp (Nat.lt_of_lt_of_le (List.count_pos_iff.mpr h) (hp p))
  exact ⟨I.pending p q hq, fun a ha h => ha (I.pendingOne p a q h hq)⟩

/-- The scheduler goes on; processes that have exited may be taken from the reaper queue or put into
it. -/
theorem setQueue (I : Rest m) {s : Sched.Machine} (hs : Sched.Inv s)
    (hn : s.nextId = m.sched.nextId) (hi : s.idleProcess = m.sched.idleProcess)
    (ht : s.started = m.sched.started) (hq : ∀ p ∈ s.reaperQueue ++ s.reaped,
      (m.procs p).pc = .exited) (hr : ∀ p ∈ m.sched.reaped, p ∈ s.reaped) :
    Rest { m with sched := s } := by
  exact { I with
    sched := hs
    idle := hi.trans I.idle
    started := fun p hp => I.started p (ht ▸ hp)
    queue := hq
    pending := fun p q hp => hr p (I.pending p q hp)
    makes := fun p c hc => by
      rw [hn, ht]
      exact I.makes p c hc
    unborn := fun p hp => I.unborn p (hn ▸ hp)
    room := by
      have ht : Machine.tables { m with sched := s } = m.tables := by rw [tables, tables, hn]
      rw [ht]
      exact I.room }

/-- The scheduler goes on. -/
theorem setSched (I : Rest m) {s : Sched.Machine} (hs : Sched.Inv s) (h : SameLives m.sched s) :
    Rest { m with sched := s } := by
  refine I.setQueue hs h.nextId h.idleProcess h.started (fun p hp => I.queue p ?_) fun p hp =>
    h.reaped ▸ hp
  rw [← h.reaperQueue, ← h.reaped]
  exact hp

/-- Counts change, and resources that had references are deleted. -/
theorem setCounts (I : Rest m) {count : Resource → UInt32} {deleted : Resource → Nat}
    (hle : ∀ r, m.deleted r ≤ deleted r) (hn : ∀ r, m.New r → deleted r = 0)
    (hroot : (m.procs 0).pc.early = true → deleted rootdir = 0) :
    Rest { m with count := count, deleted := deleted } := by
  exact { I with
    fresh := hn
    early := fun h => ⟨hroot h, (I.early h).2⟩
    room := by
      have ht : Machine.tables { m with count := count, deleted := deleted } ≤ m.tables := by
        apply List.Sublist.length_le
        apply List.monotone_filter_right
        intro p hp
        simp only [decide_eq_true_eq] at hp ⊢
        exact Nat.le_zero.mp (hp ▸ hle (.table p))
      have hroom := I.room
      unfold n at hroom ⊢
      omega }

/-- A new object has its number. -/
theorem newObject (I : Rest m) : Rest { m with nextObject := m.nextObject + 1 } := by
  have hN {r : Resource} (h : ({ m with nextObject := m.nextObject + 1 } : Machine).New r) :
      m.New r := by
    cases r with
    | process p | table p => exact h
    | semaphore k | file k | directory k => exact Nat.le_of_succ_le h
  exact { I with
    old := fun p i r h => ⟨mt hN (I.old p i r h).1, (I.old p i r h).2⟩
    fresh := fun r h => I.fresh r (hN h)
    object := Nat.succ_pos _ }

end Rest

end Machine

end K439.Table
