import K439.Sched.Program
import Mathlib.Data.List.Infix

/-!
# The bounded buffer

`kernel/bb.h`. A producer that has a unit of `nEmpty` has a free slot and one that has stored owes a
unit of `nFull`; with consumers it is the other way round. So the counts of the semaphores, what the
processes between their operations have, and the number of values in the buffer are in balance.
-/

namespace K439.Sched.BB

/-- The semaphores of a buffer. -/
inductive Sem
  | nFull
  | nEmpty
  | mutex
  deriving DecidableEq

/-- The array and its indices, and the values in the order in which they were stored and taken. -/
structure Buffer (V : Type) where
  arr : Nat → V
  head : Nat
  tail : Nat
  stored : List V
  taken : List V

/-- What is done under the mutex. -/
inductive Access (V : Type)
  | store (v : V)
  | take

variable {V : Type}

/-- `arr[tail++] = v; if (tail == n) tail = 0;` and `v = arr[head++]; if (head == n) head = 0;` -/
def access (n : Nat) : Access V → Buffer V → Buffer V
  | .store v, b =>
    { b with
      arr := Function.update b.arr b.tail v
      tail := if b.tail + 1 = n then 0 else b.tail + 1
      stored := b.stored ++ [v] }
  | .take, b =>
    { b with
      head := if b.head + 1 = n then 0 else b.head + 1
      taken := b.taken ++ [b.arr b.head] }

def put (v : V) : List (Action Sem (Access V)) :=
  [.down .nEmpty, .down .mutex, .act (.store v), .up .mutex, .up .nFull]

def get : List (Action Sem (Access V)) :=
  [.down .nFull, .down .mutex, .act .take, .up .mutex, .up .nEmpty]

/-- What the producers and consumers call. -/
def Calls (prog : List (Action Sem (Access V))) : Prop := (∃ v, prog = put v) ∨ prog = get

/-- `BB(n)` -/
def init (n : Nat) (arr : Nat → V) : Threads Sem (Access V) (Buffer V) where
  sems
    | .nFull => { count := 0, waiting := [] }
    | .nEmpty => { count := Int32.ofNat n, waiting := [] }
    | .mutex => { count := 1, waiting := [] }
  rest := fun _ => []
  data := { arr := arr, head := 0, tail := 0, stored := [], taken := [] }

/-- A value in the slot `i` was stored and not taken yet. -/
def Unread (n : Nat) (b : Buffer V) (i : Nat) : Prop :=
  ∃ k, b.taken.length ≤ k ∧ k < b.stored.length ∧ k % n = i

/-- What a buffer of `n` slots is for. -/
structure Correct (n : Nat) (s : Threads Sem (Access V) (Buffer V)) : Prop where
  nonneg : s.data.taken.length ≤ s.data.stored.length
  full : s.data.stored.length - s.data.taken.length ≤ n
  head : s.data.head < n
  tail : s.data.tail < n
  /-- no value is overwritten before it is read -/
  store : ∀ p v rest, s.rest p = .act (.store v) :: rest → ¬Unread n s.data s.data.tail
  /-- no value is read that was not stored -/
  take : ∀ p rest, s.rest p = .act .take :: rest → Unread n s.data s.data.head
  /-- one process is at the buffer at a time -/
  mutex : ∀ p q a b rest rest', s.rest p = .act a :: rest → s.rest q = .act b :: rest' → p = q
  fifo : s.data.taken <+: s.data.stored

/-! ## Who has a unit -/

/-- `nEmpty`: a free slot, until a value is stored in it. -/
def emptyWeight : Action Sem (Access V) → Int
  | .down .nEmpty => -1
  | .up .nEmpty => 1
  | .act (.store _) => 1
  | .act .take => -1
  | _ => 0

/-- `nFull`: a stored value, until it is taken. -/
def fullWeight : Action Sem (Access V) → Int
  | .down .nFull => -1
  | .up .nFull => 1
  | .act (.store _) => -1
  | .act .take => 1
  | _ => 0

def mutexWeight : Action Sem (Access V) → Int
  | .down .mutex => -1
  | .up .mutex => 1
  | _ => 0

/-- The number of values in the buffer. -/
def Buffer.size (b : Buffer V) : Int := b.stored.length - b.taken.length

theorem empty_accounts (n : Nat) :
    Accounts (access n) .nEmpty (emptyWeight (V := V)) Buffer.size where
  down := rfl
  up := rfl
  other_down y hy := by cases y <;> first | rfl | exact absurd rfl hy
  other_up y hy := by cases y <;> first | rfl | exact absurd rfl hy
  act a b := by
    cases a with
    | store v =>
      simp only [access, emptyWeight, Buffer.size, List.length_append, List.length_singleton]; omega
    | take =>
      simp only [access, emptyWeight, Buffer.size, List.length_append, List.length_singleton]; omega

theorem full_accounts (n : Nat) :
    Accounts (access n) .nFull (fullWeight (V := V)) fun b => -b.size where
  down := rfl
  up := rfl
  other_down y hy := by cases y <;> first | rfl | exact absurd rfl hy
  other_up y hy := by cases y <;> first | rfl | exact absurd rfl hy
  act a b := by
    cases a with
    | store v =>
      simp only [access, fullWeight, Buffer.size, List.length_append, List.length_singleton]; omega
    | take =>
      simp only [access, fullWeight, Buffer.size, List.length_append, List.length_singleton]; omega

theorem mutex_accounts (n : Nat) :
    Accounts (access n) .mutex (mutexWeight (V := V)) fun _ => 0 where
  down := rfl
  up := rfl
  other_down y hy := by cases y <;> first | rfl | exact absurd rfl hy
  other_up y hy := by cases y <;> first | rfl | exact absurd rfl hy
  act a b := rfl

/-- Where a process is in a call. -/
theorem ends_cases {l : List (Action Sem (Access V))} (h : Ends Calls l) :
    (∃ v, l <:+ put v) ∨ l <:+ get := by
  rcases h with rfl | ⟨prog, ⟨v, rfl⟩ | rfl, hs⟩
  · exact .inr (List.nil_suffix)
  · exact .inl ⟨v, hs⟩
  · exact .inr hs

/-- No process owes a unit. -/
theorem weight_nonneg {l : List (Action Sem (Access V))} (h : Ends Calls l) :
    0 ≤ weight emptyWeight l ∧ 0 ≤ weight fullWeight l ∧ 0 ≤ weight mutexWeight l := by
  rcases ends_cases h with ⟨v, h⟩ | h
  · simp only [put, List.suffix_cons_iff, List.suffix_nil] at h
    rcases h with rfl | rfl | rfl | rfl | rfl | rfl
    all_goals simp [emptyWeight, fullWeight, mutexWeight]
  · simp only [get, List.suffix_cons_iff, List.suffix_nil] at h
    rcases h with rfl | rfl | rfl | rfl | rfl | rfl
    all_goals simp [emptyWeight, fullWeight, mutexWeight]

/-- A process at the buffer has the mutex. -/
theorem access_mutex {a : Access V} {rest : List (Action Sem (Access V))}
    (h : Ends Calls (.act a :: rest)) : ∃ rest', rest = .up .mutex :: rest' := by
  rcases ends_cases h with ⟨v, h⟩ | h
  · simp only [put, List.suffix_cons_iff, List.suffix_nil, List.cons.injEq, reduceCtorEq,
      false_and, false_or, or_false] at h
    exact ⟨_, h.2⟩
  · simp only [get, List.suffix_cons_iff, List.suffix_nil, List.cons.injEq, reduceCtorEq,
      false_and, false_or, or_false] at h
    exact ⟨_, h.2⟩

/-- The index behind the slot of the value number `k`. -/
theorem wrap {n k : Nat} (hn : 0 < n) : (if k % n + 1 = n then 0 else k % n + 1) = (k + 1) % n := by
  have hlt := Nat.mod_lt k hn
  have hmod : (k + 1) % n = (k % n + 1) % n := (Nat.mod_add_mod k n 1).symm
  split
  next h => rw [hmod, h, Nat.mod_self]
  next h => exact (hmod.trans (Nat.mod_eq_of_lt (by omega))).symm

/-- Two of `n` values in a row are in different slots. -/
theorem slot_ne {n k m : Nat} (h : k < m) (hlt : m < k + n) : k % n ≠ m % n := by
  intro heq
  have hzero := Nat.sub_mod_eq_zero_of_mod_eq heq.symm
  rw [Nat.mod_eq_of_lt (by omega)] at hzero
  omega

/-! ## The invariant -/

/-- The value number `k` is in the slot `k % n`, from when it is stored until it is taken. -/
structure Buffer.Holds (n : Nat) (b : Buffer V) : Prop where
  head : b.head = b.taken.length % n
  tail : b.tail = b.stored.length % n
  arr : ∀ k (h : k < b.stored.length), b.taken.length ≤ k → b.arr (k % n) = b.stored[k]
  fifo : b.taken <+: b.stored

namespace Buffer.Holds

variable {n : Nat} {b : Buffer V}

theorem store (H : b.Holds n) (hn : 0 < n) (hfree : b.stored.length < b.taken.length + n) (v : V) :
    (access n (.store v) b).Holds n where
  head := H.head
  tail := by
    rw [access]
    dsimp only
    rw [H.tail, wrap hn, List.length_append, List.length_singleton]
  arr k h hk := by
    simp only [access, List.length_append, List.length_singleton] at h hk ⊢
    rw [H.tail]
    rcases Nat.lt_succ_iff_lt_or_eq.mp h with hlt | rfl
    · rw [Function.update_of_ne (slot_ne hlt (by omega)), List.getElem_append_left hlt]
      exact H.arr k hlt hk
    · rw [Function.update_self, List.getElem_concat_length rfl]
  fifo := H.fifo.trans (List.prefix_append ..)

theorem take (H : b.Holds n) (hn : 0 < n) (hfull : b.taken.length < b.stored.length) :
    (access n .take b).Holds n where
  head := by
    rw [access]
    dsimp only
    rw [H.head, wrap hn, List.length_append, List.length_singleton]
  tail := H.tail
  arr k h hk := by
    simp only [access, List.length_append, List.length_singleton] at hk
    exact H.arr k h (by omega)
  fifo := by
    have htake : b.taken = b.stored.take b.taken.length := List.prefix_iff_eq_take.mp H.fifo
    rw [access]
    dsimp only
    rw [H.head, H.arr _ hfull (Nat.le_refl _)]
    conv => lhs; arg 1; rw [htake]
    rw [← List.take_succ_eq_append_getElem]
    exact List.take_prefix ..

end Buffer.Holds

structure Inv (n : Nat) (T : Finset Pid) (s : Threads Sem (Access V) (Buffer V)) : Prop where
  threads : s.Inv T Calls
  empty : s.balance T .nEmpty emptyWeight Buffer.size = n
  full : s.balance T .nFull fullWeight (fun b => -b.size) = 0
  mutex : s.balance T .mutex mutexWeight (fun _ => 0) = 1
  holds : s.data.Holds n

namespace Inv

variable {n : Nat} {T : Finset Pid} {s s' : Threads Sem (Access V) (Buffer V)} {p q : Pid}
  {e : Turn Sem (Access V)} {rest : List (Action Sem (Access V))} {a : Action Sem (Access V)}

theorem count_nonneg (I : Inv n T s) (x : Sem) : 0 ≤ (s.sems x).count.toInt :=
  Int32.le_iff_toInt_le.mp (I.threads.sound x).count

/-- The three counts, and what the process `p` has. -/
theorem bounds (I : Inv n T s) (hp : p ∈ T) :
    (s.sems .nEmpty).count.toInt + s.data.size + weight emptyWeight (s.rest p) ≤ n ∧
      (s.sems .nFull).count.toInt + weight fullWeight (s.rest p) ≤ s.data.size ∧
      (s.sems .mutex).count.toInt + weight mutexWeight (s.rest p) ≤ 1 := by
  have hw := fun q => weight_nonneg (I.threads.ends q)
  have hE := le_account (T := T) (fun q => (hw q).1) hp
  have hF := le_account (T := T) (fun q => (hw q).2.1) hp
  have hM := le_account (T := T) (fun q => (hw q).2.2) hp
  have hempty := I.empty
  have hfull := I.full
  have hmutex := I.mutex
  simp only [Threads.balance] at hempty hfull hmutex
  refine ⟨?_, ?_, ?_⟩
  · omega
  · omega
  · omega

theorem size (I : Inv n T s) : 0 ≤ s.data.size ∧ s.data.size ≤ n := by
  have hw := fun q => weight_nonneg (I.threads.ends q)
  have hE := account_nonneg (T := T) (fun q => (hw q).1)
  have hF := account_nonneg (T := T) (fun q => (hw q).2.1)
  have hempty := I.empty
  have hfull := I.full
  have hcE := I.count_nonneg .nEmpty
  have hcF := I.count_nonneg .nFull
  simp only [Threads.balance] at hempty hfull
  omega

/-- A producer at the buffer has a free slot. -/
theorem free (I : Inv n T s) {v : V} (hr : s.rest p = .act (.store v) :: rest) :
    s.data.stored.length < s.data.taken.length + n := by
  have hE := (I.bounds (I.threads.mem hr)).1
  have hw := (weight_nonneg (hr ▸ I.threads.ends p).tail).1
  have hc := I.count_nonneg .nEmpty
  rw [hr, weight_cons, emptyWeight, Buffer.size] at hE
  omega

/-- A consumer at the buffer has a value. -/
theorem filled (I : Inv n T s) (hr : s.rest p = .act .take :: rest) :
    s.data.taken.length < s.data.stored.length := by
  have hF := (I.bounds (I.threads.mem hr)).2.1
  have hw := (weight_nonneg (hr ▸ I.threads.ends p).tail).2.1
  have hc := I.count_nonneg .nFull
  rw [hr, weight_cons, fullWeight, Buffer.size] at hF
  omega

/-- Who gives back a unit finds a count below `n`, or 0 for the mutex. -/
theorem room (I : Inv n T s) (hn : 0 < n) {x : Sem} (hr : s.rest p = .up x :: rest) :
    (s.sems x).count.toInt < n := by
  obtain ⟨hE, hF, hM⟩ := I.bounds (I.threads.mem hr)
  have hw := weight_nonneg (hr ▸ I.threads.ends p).tail
  have hsize := I.size
  rw [hr, weight_cons] at hE hF hM
  cases x with
  | nFull =>
    rw [fullWeight] at hF
    omega
  | nEmpty =>
    rw [emptyWeight] at hE
    omega
  | mutex =>
    rw [mutexWeight] at hM
    omega

/-- Two processes are not at the buffer at once. -/
theorem access_unique (I : Inv n T s) {a b : Access V} {rest' : List (Action Sem (Access V))}
    (hp : s.rest p = .act a :: rest) (hq : s.rest q = .act b :: rest') : p = q := by
  by_contra hne
  have hw := add_le_account (fun q => (weight_nonneg (I.threads.ends q)).2.2) (I.threads.mem hp)
    (I.threads.mem hq) hne
  have hc := I.count_nonneg .mutex
  have hM := I.mutex
  obtain ⟨l, rfl⟩ := access_mutex (hp ▸ I.threads.ends p)
  obtain ⟨l', rfl⟩ := access_mutex (hq ▸ I.threads.ends q)
  have hl := (weight_nonneg (hp ▸ I.threads.ends p).tail.tail).2.2
  have hl' := (weight_nonneg (hq ▸ I.threads.ends q).tail.tail).2.2
  rw [hp, hq] at hw
  simp only [weight_cons, mutexWeight] at hw
  simp only [Threads.balance] at hM
  omega

theorem correct (I : Inv n T s) (hn : 0 < n) : Correct n s where
  nonneg := I.holds.fifo.length_le
  full := by
    have h := I.size
    rw [Buffer.size] at h
    omega
  head := I.holds.head ▸ Nat.mod_lt _ hn
  tail := I.holds.tail ▸ Nat.mod_lt _ hn
  store p v rest hr := by
    rintro ⟨k, hk, hlt, h⟩
    have hfree := I.free hr
    rw [I.holds.tail] at h
    exact slot_ne hlt (by omega) h
  take p rest hr := ⟨_, Nat.le_refl _, I.filled hr, I.holds.head.symm⟩
  mutex p q a b rest rest' hp hq := I.access_unique hp hq
  fifo := I.holds.fifo

theorem holds_step (I : Inv n T s) (hn : 0 < n) (h : s.next (access n) p = some s') :
    s'.data.Holds n := by
  cases Threads.does h with
  | act hr =>
    rename_i a rest
    cases a with
    | store v => exact I.holds.store hn (I.free hr) v
    | take => exact I.holds.take hn (I.filled hr)
  | block => exact I.holds
  | take => exact I.holds
  | raise => exact I.holds
  | hand => exact I.holds

theorem weight_call {prog : List (Action Sem (Access V))} (h : Calls prog) :
    weight emptyWeight prog = 0 ∧ weight fullWeight prog = 0 ∧ weight mutexWeight prog = 0 := by
  rcases h with ⟨v, rfl⟩ | rfl
  · simp [put, emptyWeight, fullWeight, mutexWeight]
  · simp [get, emptyWeight, fullWeight, mutexWeight]

theorem step (I : Inv n T s) (hn : 0 < n) (hmax : n < 0x80000000)
    (h : s.Step (access n) T Calls e s') : Inv n T s' := by
  cases e with
  | call p prog =>
    obtain ⟨hp, hcall, hr, rfl⟩ := h
    obtain ⟨hE, hF, hM⟩ := weight_call hcall
    exact ⟨I.threads.call hp hcall hr, (Accounts.call hp hr hE).trans I.empty,
      (Accounts.call hp hr hF).trans I.full, (Accounts.call hp hr hM).trans I.mutex, I.holds⟩
  | step p =>
    have hroom : ∀ x rest, s.rest p = .up x :: rest → (s.sems x).waiting = [] →
        (s.sems x).count ≠ 2147483647 := by
      intro x rest hr _ heq
      have hlt := I.room hn hr
      rw [heq] at hlt
      have hint : (2147483647 : Int32).toInt = 2147483647 := rfl
      omega
    exact ⟨I.threads.step hroom h, ((empty_accounts n).step I.threads hroom h).trans I.empty,
      ((full_accounts n).step I.threads hroom h).trans I.full,
      ((mutex_accounts n).step I.threads hroom h).trans I.mutex, I.holds_step hn h⟩

theorem init (hmax : n < 0x80000000) (T : Finset Pid) (arr : Nat → V) :
    Inv n T (BB.init n arr) := by
  have hcount : (Int32.ofNat n).toInt = n := Int32.toInt_ofNat_of_lt hmax
  have hzero (w : Action Sem (Access V) → Int) : account T (weight w) (BB.init n arr).rest = 0 :=
    account_eq_zero fun _ _ => rfl
  refine ⟨⟨fun x => ?_, fun x p hp => ?_, fun x => ?_, fun p => .inl rfl, fun p _ => rfl⟩, ?_,
    ?_, ?_, ?_⟩
  · cases x with
    | nFull => exact ⟨Int32.le_refl 0, fun h => absurd rfl h⟩
    | nEmpty =>
      exact ⟨Int32.le_iff_toInt_le.mpr (by rw [BB.init]; simp [hcount]), fun h => absurd rfl h⟩
    | mutex => exact ⟨show (0 : Int32) ≤ 1 by decide, fun h => absurd rfl h⟩
  · cases x <;> cases hp
  · cases x <;> exact List.nodup_nil
  · rw [Threads.balance, hzero]
    simp [BB.init, hcount, Buffer.size]
  · rw [Threads.balance, hzero]
    simp [BB.init, Buffer.size]
  · rw [Threads.balance, hzero]
    simp [BB.init]
  · exact ⟨(Nat.zero_mod n).symm, (Nat.zero_mod n).symm, fun k h => absurd h (Nat.not_lt_zero k),
      List.prefix_refl _⟩

end Inv

/-- **The bounded buffer is correct** in every state of every run. -/
theorem buffer_correct {n : Nat} (hn : 0 < n) (hmax : n < 0x80000000) {T : Finset Pid}
    {arr : Nat → V} {es : List (Turn Sem (Access V))} {s : Threads Sem (Access V) (Buffer V)}
    (h : Run (Threads.Step (access n) T Calls) (init n arr) es s) : Correct n s :=
  (h.inv (fun _ _ _ I h => I.step hn hmax h) (Inv.init hmax T arr)).correct hn

/-- A producer fills the one slot of a buffer and a consumer takes the value. -/
theorem buffer_correct_one : ∃ s : Threads Sem (Access Nat) (Buffer Nat),
    s.data.stored = [7] ∧ s.data.taken = [7] ∧ Correct 1 s := by
  have hrun : ([.call 0 (put 7), .call 1 get, .step 1, .step 0, .step 0, .step 0, .step 0, .step 0,
      .step 1, .step 1].foldlM (Threads.exec (access 1)) (init 1 fun _ => 0)).map
        (fun s => (s.data.stored, s.data.taken)) = some ([7], [7]) := by
    decide +kernel
  obtain ⟨s, hs, he⟩ := Option.map_eq_some_iff.mp hrun
  have h := Threads.run_of_exec (T := {0, 1}) (P := Calls) (fun p prog h => ?_) hs
  · exact ⟨s, congrArg Prod.fst he, congrArg Prod.snd he,
      buffer_correct (by decide) (by decide) h⟩
  · simp only [List.mem_cons, Turn.call.injEq, reduceCtorEq, List.not_mem_nil, or_false] at h
    rcases h with ⟨rfl, rfl⟩ | ⟨rfl, rfl⟩
    · exact ⟨by simp, .inl ⟨7, rfl⟩⟩
    · exact ⟨by simp, .inr rfl⟩

end K439.Sched.BB
