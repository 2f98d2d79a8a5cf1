import K439.Lib.Account
import K439.Sched.Semaphore
import Mathlib.Algebra.Ring.Int.Defs

/-!
# Programs over semaphores

Any number of processes, each of which runs a program of semaphore operations and other atomic
actions, in any order. A process that waits in the queue of a semaphore takes no step; `up` moves
the first one behind its `down`. For every semaphore, its count and what the programs still have to
do with it stay in balance (`Account.step`).
-/

namespace K439.Sched

/-- A step of a program over the semaphores `S`; `A` are the steps that are no semaphore
operations. -/
inductive Action (S A : Type)
  | down (x : S)
  | up (x : S)
  | act (a : A)
  deriving DecidableEq

/-- What the processes share, and what each has left to do. -/
structure Threads (S A D : Type) where
  sems : S → Semaphore
  rest : Pid → List (Action S A)
  data : D

inductive Turn (S A : Type)
  /-- the process `p` begins a program -/
  | call (p : Pid) (prog : List (Action S A))
  /-- the process `p` goes on -/
  | step (p : Pid)

/-- What is left of a program. -/
def Ends {S A : Type} (P : List (Action S A) → Prop) (l : List (Action S A)) : Prop :=
  l = [] ∨ ∃ prog, P prog ∧ l <:+ prog

theorem Ends.tail {S A : Type} {P : List (Action S A) → Prop} {a : Action S A}
    {l : List (Action S A)} (h : Ends P (a :: l)) : Ends P l := by
  rcases h with h | ⟨prog, hp, hs⟩
  · cases h
  · exact .inr ⟨prog, hp, (List.suffix_cons a l).trans hs⟩

/-- What holds in every state, as long as no count exceeds an `int`. -/
structure Threads.Inv {S A D : Type} (T : Finset Pid) (P : List (Action S A) → Prop)
    (s : Threads S A D) : Prop where
  sound : ∀ x, (s.sems x).Sound
  /-- a process waits at its `down`, and once -/
  blocked : ∀ x, ∀ p ∈ (s.sems x).waiting, ∃ rest, s.rest p = .down x :: rest
  nodup : ∀ x, (s.sems x).waiting.Nodup
  ends : ∀ p, Ends P (s.rest p)
  idle : ∀ p ∉ T, s.rest p = []

variable {S A D : Type} {s s' : Threads S A D} {f : A → D → D} {p : Pid} {T : Finset Pid}
  {P : List (Action S A) → Prop}

namespace Threads.Inv

variable {q : Pid} {x : S} {rest : List (Action S A)} {a : Action S A}

theorem mem (I : Inv T P s) (hr : s.rest p = a :: rest) : p ∈ T := by
  by_contra h
  rw [I.idle p h] at hr
  cases hr

/-- A process that does not stand at a `down` does not wait. -/
theorem not_waiting (I : Inv T P s) (hr : s.rest p = a :: rest) (ha : a ≠ .down x) :
    p ∉ (s.sems x).waiting := by
  intro h
  obtain ⟨rest', hr'⟩ := I.blocked x p h
  rw [hr] at hr'
  exact ha (List.cons.inj hr').1

/-- What `p` has left is replaced. -/
theorem update (I : Inv T P s) (hp : p ∈ T) (hrest : Ends P rest) :
    (∀ q, Ends P (Function.update s.rest p rest q)) ∧
    ∀ q ∉ T, Function.update s.rest p rest q = [] := by
  constructor
  · rw [Function.forall_update_iff s.rest (fun _ l => Ends P l)]
    exact ⟨hrest, fun q _ => I.ends q⟩
  · intro q hq
    rw [Function.update_of_ne (ne_of_mem_of_not_mem hp hq).symm]
    exact I.idle q hq

/-- The processes that wait are some of those that did, and have the same left to do. -/
theorem of_sublist (I : Inv T P s) (hsound : ∀ x, (s'.sems x).Sound)
    (hsub : ∀ x, (s'.sems x).waiting.Sublist (s.sems x).waiting)
    (hrest : ∀ x, ∀ q ∈ (s'.sems x).waiting, s'.rest q = s.rest q)
    (hends : (∀ q, Ends P (s'.rest q)) ∧ ∀ q ∉ T, s'.rest q = []) : Inv T P s' where
  sound := hsound
  blocked x q hq := by
    rw [hrest x q hq]
    exact I.blocked x q ((hsub x).subset hq)
  nodup x := (I.nodup x).sublist (hsub x)
  ends := hends.1
  idle := hends.2

theorem call {prog : List (Action S A)} (I : Inv T P s) (hp : p ∈ T) (hP : P prog)
    (hr : s.rest p = []) : Inv T P { s with rest := Function.update s.rest p prog } := by
  refine I.of_sublist I.sound (fun x => List.Sublist.refl _) (fun x q hq => ?_)
    (I.update hp (.inr ⟨prog, hP, List.suffix_refl _⟩))
  obtain ⟨rest, hrq⟩ := I.blocked x q hq
  refine Function.update_of_ne ?_ ..
  rintro rfl
  rw [hr] at hrq
  cases hrq

end Threads.Inv

/-- A weight for each action: for the semaphore `x` as its count changes, and for the other actions
as `g` does. -/
structure Accounts {S A D : Type} (f : A → D → D) (x : S) (w : Action S A → Int)
    (g : D → Int) : Prop where
  down : w (.down x) = -1
  up : w (.up x) = 1
  other_down : ∀ y ≠ x, w (.down y) = 0
  other_up : ∀ y ≠ x, w (.up y) = 0
  act : ∀ a d, g (f a d) = g d + w (.act a)

/-- The weight of a program. -/
def weight (w : Action S A → Int) (l : List (Action S A)) : Int := (l.map w).sum

@[simp] theorem weight_nil (w : Action S A → Int) : weight w [] = 0 := rfl

@[simp] theorem weight_cons (w : Action S A → Int) (a : Action S A) (l : List (Action S A)) :
    weight w (a :: l) = w a + weight w l := by
  rw [weight, List.map_cons, List.sum_cons, weight]

/-- The count, the data, and what the programs have to do. -/
def Threads.balance (T : Finset Pid) (x : S) (w : Action S A → Int) (g : D → Int)
    (s : Threads S A D) : Int :=
  (s.sems x).count.toInt + g s.data + account T (weight w) s.rest

variable [DecidableEq S]

/-- The next step of `p`, if it has one and does not wait. -/
def Threads.next (f : A → D → D) (s : Threads S A D) (p : Pid) : Option (Threads S A D) :=
  match s.rest p with
  | [] => none
  | .down x :: rest =>
    if p ∈ (s.sems x).waiting then none
    else
      let sems := Function.update s.sems x ((s.sems x).down p)
      if (s.sems x).count = 0 then some { s with sems := sems }
      else some { s with sems := sems, rest := Function.update s.rest p rest }
  | .up x :: rest =>
    let sems := Function.update s.sems x (s.sems x).up
    match (s.sems x).waiting with
    | [] => some { s with sems := sems, rest := Function.update s.rest p rest }
    | q :: _ =>
      some { s with
        sems := sems
        rest := Function.update (Function.update s.rest p rest) q (s.rest q).tail }
  | .act a :: rest => some { s with data := f a s.data, rest := Function.update s.rest p rest }

/-- The processes `T` call the programs `P`. -/
def Threads.Step (f : A → D → D) (T : Finset Pid) (P : List (Action S A) → Prop)
    (s : Threads S A D) (e : Turn S A) (s' : Threads S A D) : Prop :=
  match e with
  | .call p prog =>
    p ∈ T ∧ P prog ∧ s.rest p = [] ∧ s' = { s with rest := Function.update s.rest p prog }
  | .step p => s.next f p = some s'

/-- The steps as a function, with the calls that a list of turns makes. -/
def Threads.exec (f : A → D → D) (s : Threads S A D) : Turn S A → Option (Threads S A D)
  | .call p prog =>
    if (s.rest p).isEmpty then some { s with rest := Function.update s.rest p prog } else none
  | .step p => s.next f p

theorem Threads.run_of_exec {es : List (Turn S A)}
    (hcall : ∀ p prog, .call p prog ∈ es → p ∈ T ∧ P prog)
    (h : es.foldlM (exec f) s = some s') : Run (Step f T P) s es s' := by
  induction es generalizing s with
  | nil =>
    cases h
    exact .nil
  | cons e es ih =>
    rw [List.foldlM_cons] at h
    obtain ⟨t, ht, h⟩ := Option.bind_eq_some_iff.mp h
    refine .cons ?_ (ih (fun p prog hm => hcall p prog (List.mem_cons_of_mem _ hm)) h)
    cases e with
    | call p prog =>
      obtain ⟨hp, hP⟩ := hcall p prog List.mem_cons_self
      rw [exec] at ht
      split at ht
      next hr =>
        cases ht
        exact ⟨hp, hP, List.isEmpty_iff.mp hr, rfl⟩
      · cases ht
    | step p => exact ht

/-- What a process does in one step. -/
inductive Does (f : A → D → D) (s : Threads S A D) (p : Pid) : Threads S A D → Prop
  | block {x rest} (hr : s.rest p = .down x :: rest) (hp : p ∉ (s.sems x).waiting)
      (h0 : (s.sems x).count = 0) :
      Does f s p { s with sems := Function.update s.sems x ((s.sems x).down p) }
  | take {x rest} (hr : s.rest p = .down x :: rest) (h0 : (s.sems x).count ≠ 0) :
      Does f s p { s with
        sems := Function.update s.sems x ((s.sems x).down p)
        rest := Function.update s.rest p rest }
  | raise {x rest} (hr : s.rest p = .up x :: rest) (hw : (s.sems x).waiting = []) :
      Does f s p { s with
        sems := Function.update s.sems x (s.sems x).up
        rest := Function.update s.rest p rest }
  | hand {x rest q waiting} (hr : s.rest p = .up x :: rest)
      (hw : (s.sems x).waiting = q :: waiting) :
      Does f s p { s with
        sems := Function.update s.sems x (s.sems x).up
        rest := Function.update (Function.update s.rest p rest) q (s.rest q).tail }
  | act {a rest} (hr : s.rest p = .act a :: rest) :
      Does f s p { s with data := f a s.data, rest := Function.update s.rest p rest }

variable {x : S}

theorem Threads.does (h : s.next f p = some s') : Does f s p s' := by
  unfold next at h
  split at h
  · cases h
  next x rest hr =>
    split at h
    · cases h
    next hp =>
      dsimp only at h
      split at h
      next h0 =>
        cases h
        exact .block hr hp h0
      next h0 =>
        cases h
        exact .take hr h0
  next x rest hr =>
    dsimp only at h
    split at h
    next hw =>
      cases h
      exact .raise hr hw
    next q waiting hw =>
      cases h
      exact .hand hr hw
  next a rest hr =>
    cases h
    exact .act hr

/-- Only an action that is no semaphore operation changes the data. -/
theorem Threads.data_next (h : s.next f p = some s') :
    s'.data = s.data ∨ ∃ a rest, s.rest p = .act a :: rest ∧ s'.data = f a s.data := by
  cases does h with
  | act hr => exact .inr ⟨_, _, hr, rfl⟩
  | block => exact .inl rfl
  | take => exact .inl rfl
  | raise => exact .inl rfl
  | hand => exact .inl rfl

namespace Threads.Inv

variable {q : Pid} {rest : List (Action S A)} {v : Semaphore} {waiting : List Pid}

omit [DecidableEq S] in
/-- A process that is to take a unit that is there does not wait. -/
theorem not_waiting_take (I : Inv T P s) (hr : s.rest p = .down x :: rest)
    (h0 : (s.sems x).count ≠ 0) (y : S) : p ∉ (s.sems y).waiting := by
  intro hp
  obtain ⟨rest', hr'⟩ := I.blocked y p hp
  rw [hr] at hr'
  cases hr'
  exact h0 ((I.sound x).waiting (List.ne_nil_of_mem hp))

omit [DecidableEq S] in
/-- Who is handed a unit stands behind its `down` then. -/
theorem handed (I : Inv T P s) (hr : s.rest p = .up x :: rest)
    (hw : (s.sems x).waiting = q :: waiting) :
    q ≠ p ∧ ∃ restq, s.rest q = .down x :: restq := by
  obtain ⟨restq, hrq⟩ : ∃ rest, s.rest q = .down x :: rest := I.blocked x q (by simp [hw])
  refine ⟨?_, restq, hrq⟩
  rintro rfl
  rw [hr] at hrq
  cases hrq

theorem sound_update (I : Inv T P s) (hv : v.Sound) (y : S) :
    (Function.update s.sems x v y).Sound := by
  have h := (Function.forall_update_iff s.sems (fun _ v => v.Sound)).mpr ⟨hv,
      fun y (_ : y ≠ x) => I.sound y⟩
  exact h y

theorem sublist_update (hv : v.waiting.Sublist (s.sems x).waiting) (y : S) :
    (Function.update s.sems x v y).waiting.Sublist (s.sems y).waiting := by
  have h := (Function.forall_update_iff s.sems
      (fun y v => v.waiting.Sublist (s.sems y).waiting)).mpr
    ⟨hv, fun y (_ : y ≠ x) => List.Sublist.refl _⟩
  exact h y

theorem step (I : Inv T P s) (hroom : ∀ x rest, s.rest p = .up x :: rest →
      (s.sems x).waiting = [] →
    (s.sems x).count ≠ 2147483647) (h : s.next f p = some s') : Inv T P s' := by
  cases does h with
  | @block x rest hr hp h0 =>
    rw [Semaphore.down_block h0]
    refine { I with sound := I.sound_update ⟨(I.sound x).count,
      fun _ => h0⟩, blocked := ?_, nodup := ?_ }
    · intro y q hq
      rcases decEq y x with hne | rfl
      · dsimp only at hq
        rw [Function.update_of_ne hne] at hq
        exact I.blocked y q hq
      · dsimp only at hq
        rw [Function.update_self] at hq
        rcases List.mem_append.mp hq with hq | hq
        · exact I.blocked y q hq
        · cases List.mem_singleton.mp hq
          exact ⟨rest, hr⟩
    · refine (Function.forall_update_iff s.sems (fun _ v => v.waiting.Nodup)).mpr ⟨?_,
        fun y _ => I.nodup y⟩
      exact List.nodup_append'.mpr ⟨I.nodup x, List.nodup_singleton p, by simpa using hp⟩
  | @take x rest hr h0 =>
    have hsub : ((s.sems x).down p).waiting.Sublist (s.sems x).waiting := by
      rw [Semaphore.down_take h0]
    refine I.of_sublist (I.sound_update (I.sound x).down) (sublist_update hsub) (fun y q hq => ?_)
      (I.update (I.mem hr) (hr ▸ I.ends p).tail)
    have hq' := (sublist_update hsub y).subset hq
    exact Function.update_of_ne (ne_of_mem_of_not_mem hq' (I.not_waiting_take hr h0 y)) ..
  | @raise x rest hr hw =>
    have hsub : (s.sems x).up.waiting.Sublist (s.sems x).waiting := by
      rw [Semaphore.up_raise hw]
    refine I.of_sublist (I.sound_update ((I.sound x).up fun hw => hroom x rest hr hw))
      (sublist_update hsub)
      (fun y q hq => ?_) (I.update (I.mem hr) (hr ▸ I.ends p).tail)
    have hq' := (sublist_update hsub y).subset hq
    exact Function.update_of_ne (ne_of_mem_of_not_mem hq' (I.not_waiting hr (by simp))) ..
  | @hand x rest q waiting hr hw =>
    have hsub : (s.sems x).up.waiting.Sublist (s.sems x).waiting := by
      rw [Semaphore.up_hand hw, hw]
      exact List.sublist_cons_self ..
    obtain ⟨hpq, restq, hrq⟩ := I.handed hr hw
    -- `q` waited in this queue only, and was its first
    have hq : ∀ y, q ∉ (Function.update s.sems x (s.sems x).up y).waiting := by
      intro y hy
      rcases decEq y x with hne | rfl
      · rw [Function.update_of_ne hne] at hy
        exact I.not_waiting hrq (by simpa using Ne.symm hne) hy
      · rw [Function.update_self, Semaphore.up_hand hw] at hy
        have hnodup := I.nodup y
        rw [hw] at hnodup
        exact (List.nodup_cons.mp hnodup).1 hy
    have hp := I.update (I.mem hr) (hr ▸ I.ends p).tail
    rw [hrq, List.tail_cons]
    refine I.of_sublist (I.sound_update ((I.sound x).up fun h => by rw [hw] at h; cases h))
      (sublist_update hsub) (fun y z hz => ?_) ?_
    · have hz' := (sublist_update hsub y).subset hz
      exact (Function.update_of_ne (ne_of_mem_of_not_mem hz (hq y)) ..).trans
        (Function.update_of_ne (ne_of_mem_of_not_mem hz' (I.not_waiting hr (by simp))) ..)
    · refine ⟨?_, fun z hz => ?_⟩
      · refine (Function.forall_update_iff _ (fun _ l => Ends P l)).mpr ⟨?_, fun z _ => hp.1 z⟩
        exact (hrq ▸ I.ends q).tail
      · exact (Function.update_of_ne (ne_of_mem_of_not_mem (I.mem hrq) hz).symm ..).trans
          (hp.2 z hz)
  | act hr =>
    refine I.of_sublist I.sound (fun x => List.Sublist.refl _) (fun x q hq => ?_)
      (I.update (I.mem hr) (hr ▸ I.ends p).tail)
    exact Function.update_of_ne (ne_of_mem_of_not_mem hq (I.not_waiting hr (by simp))) ..

/-- What a step leaves of the programs. -/
theorem rest_next (I : Inv T P s) (h : s.next f p = some s') (y : Pid) :
    s'.rest y = s.rest y ∨ ∃ a, s.rest y = a :: s'.rest y := by
  have hupdate {a : Action S A} {rest : List (Action S A)} (hr : s.rest p = a :: rest) :
      Function.update s.rest p rest y = s.rest y ∨
        ∃ a, s.rest y = a :: Function.update s.rest p rest y := by
    rcases Nat.decEq y p with hne | rfl
    · exact .inl (Function.update_of_ne hne ..)
    · rw [Function.update_self]
      exact .inr ⟨a, hr⟩
  cases does h with
  | block => exact .inl rfl
  | take hr => exact hupdate hr
  | raise hr => exact hupdate hr
  | @hand x rest q waiting hr hw =>
    obtain ⟨-, restq, hrq⟩ := I.handed hr hw
    dsimp only
    rcases Nat.decEq y q with hne | rfl
    · rw [Function.update_of_ne hne]
      exact hupdate hr
    · rw [Function.update_self, hrq]
      exact .inr ⟨_, rfl⟩
  | act hr => exact hupdate hr

end Threads.Inv

/-! ## Accounts -/

namespace Accounts

variable {w : Action S A → Int} {g : D → Int} {rest : List (Action S A)}

open Threads

/-- A step keeps the balance. -/
theorem step (W : Accounts f x w g) (I : Threads.Inv T P s)
    (hroom : ∀ x rest, s.rest p = .up x :: rest → (s.sems x).waiting = [] →
      (s.sems x).count ≠ 2147483647) (h : s.next f p = some s') :
    s'.balance T x w g = s.balance T x w g := by
  cases does h with
  | @block y rest hr hp h0 =>
    rw [Semaphore.down_block h0, balance, balance]
    rcases decEq x y with hne | rfl
    · dsimp only
      rw [Function.update_of_ne hne]
    · dsimp only
      rw [Function.update_self]
  | @take y rest hr h0 =>
    rw [Semaphore.down_take h0, balance, balance, account_update (I.mem hr), hr, weight_cons]
    rcases decEq x y with hne | rfl
    · have hw := W.other_down y (Ne.symm hne)
      dsimp only
      rw [Function.update_of_ne hne]
      omega
    · have hw := W.down
      have hpred := Semaphore.toInt_sub_one (I.sound x).count h0
      dsimp only
      rw [Function.update_self]
      dsimp only
      omega
  | @raise y rest hr hw =>
    rw [Semaphore.up_raise hw, balance, balance, account_update (I.mem hr), hr, weight_cons]
    rcases decEq x y with hne | rfl
    · have hw := W.other_up y (Ne.symm hne)
      dsimp only
      rw [Function.update_of_ne hne]
      omega
    · have hw' := W.up
      have hsucc := Semaphore.toInt_add_one (I.sound x).count (hroom x rest hr hw)
      dsimp only
      rw [Function.update_self]
      dsimp only
      omega
  | @hand y rest q waiting hr hw =>
    -- the count stays as it is: the `up` of `p` pays for the `down` of `q`
    obtain ⟨hpq, restq, hrq⟩ := I.handed hr hw
    rw [Semaphore.up_hand hw, balance, balance, account_update (I.mem hrq),
      account_update (I.mem hr),
      Function.update_of_ne hpq, hr, hrq, weight_cons, weight_cons, List.tail_cons]
    rcases decEq x y with hne | rfl
    · have hw := W.other_up y (Ne.symm hne)
      have hw' := W.other_down y (Ne.symm hne)
      dsimp only
      rw [Function.update_of_ne hne]
      omega
    · have hw' := W.up
      have hw'' := W.down
      dsimp only
      rw [Function.update_self]
      dsimp only
      omega
  | act hr =>
    rw [balance, balance, account_update (I.mem hr), hr, weight_cons, W.act]
    dsimp only
    omega

omit [DecidableEq S] in
/-- So does the call of a program without weight. -/
theorem call {prog : List (Action S A)} (hp : p ∈ T) (hr : s.rest p = [])
    (hw : weight w prog = 0) :
    { s with rest := Function.update s.rest p prog }.balance T x w g = s.balance T x w g := by
  rw [balance, balance, account_update hp, hr, hw, weight_nil]
  dsimp only
  omega

end Accounts

end K439.Sched
