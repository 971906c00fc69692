import Mathlib.Tactic
import SysProg.Lib.Lts

/-!
# The spinlock of `task4-concurrency/src/spinlock.cpp`

`cspin_lock`, `cspin_trylock` and `cspin_unlock` run on one atomic word. Every
access is a `compare_exchange_weak`, which the library allows to fail spuriously;
the label of an exchange step says whether it does. A lock or trylock call decides
about its success from the value left in `expected`, not from the exchange's
return value.

* `Owns` is the invariant's notion of holding the lock, `Inv` ties it to the word;
* `mutual_exclusion` — in every run whose exchanges do not fail spuriously on a
  matching word, at most one thread is inside and the word is right at rest;
* `two_threads_inside` — with two spurious failures both threads get in.
-/

namespace SysProg.SpinLock

open Lts

inductive LockState where
  | locked
  | unlocked
deriving DecidableEq, Repr

/-- `std::atomic::compare_exchange_weak(expected, desired)` on the word `lock`:
the new word, the new value of `expected` and the result. A spurious failure
leaves the word alone and stores the current value into `expected`. -/
def compareExchangeWeak (lock expected desired : LockState) (spurious : Bool) :
    LockState × LockState × Bool :=
  if spurious then (lock, lock, false)
  else if lock = expected then (desired, expected, true)
  else (lock, lock, false)

/-- Program counter of a thread that uses the lock: outside or inside the critical
section with no call in progress, or at one of the two points of a call, before
the exchange and after it with the value left in `expected`. -/
inductive Pc where
  | outside
  | lockCas
  | lockTest (expected : LockState)
  | trylockCas
  | trylockTest (expected : LockState)
  | inside
  | unlockCas
  | unlockReturn
deriving DecidableEq, Repr

/-- What a thread does next. `exchange` carries the library's choice. -/
inductive Act where
  | callLock
  | callTrylock
  | callUnlock
  | exchange (spurious : Bool)
  | continue
deriving DecidableEq, Repr

/-- The lock word and the program counters of all threads. -/
structure St (Tid : Type) where
  lock : LockState
  pc : Tid → Pc

variable {Tid : Type} [DecidableEq Tid] {s : St Tid}

/-- Move thread `t` to `p`. -/
def St.goto (s : St Tid) (t : Tid) (p : Pc) : St Tid :=
  { s with pc := Function.update s.pc t p }

@[simp] theorem St.goto_lock (s : St Tid) (t : Tid) (p : Pc) : (s.goto t p).lock = s.lock := rfl

@[simp] theorem St.goto_pc (s : St Tid) (t : Tid) (p : Pc) :
    (s.goto t p).pc = Function.update s.pc t p := rfl

/-- The value the next exchange of a thread expects, when it is at one. -/
def Pc.expected : Pc → Option LockState
  | .lockCas | .trylockCas => some .unlocked
  | .unlockCas => some .locked
  | _ => none

/-- One step of thread `t`. A failed `cspin_lock` test goes round the loop again,
a failed `cspin_trylock` returns zero and the thread stays outside. -/
def step (t : Tid) (a : Act) (s : St Tid) : Option (St Tid) :=
  match s.pc t, a with
  | .outside, .callLock => some (s.goto t .lockCas)
  | .outside, .callTrylock => some (s.goto t .trylockCas)
  | .inside, .callUnlock => some (s.goto t .unlockCas)
  | .lockCas, .exchange spurious =>
      let (lock, expected, _) := compareExchangeWeak s.lock .unlocked .locked spurious
      some ({ s with lock := lock }.goto t (.lockTest expected))
  | .trylockCas, .exchange spurious =>
      let (lock, expected, _) := compareExchangeWeak s.lock .unlocked .locked spurious
      some ({ s with lock := lock }.goto t (.trylockTest expected))
  | .unlockCas, .exchange spurious =>
      let (lock, _, _) := compareExchangeWeak s.lock .locked .unlocked spurious
      some ({ s with lock := lock }.goto t .unlockReturn)
  | .lockTest expected, .continue =>
      some (s.goto t (if expected = .unlocked then .inside else .lockCas))
  | .trylockTest expected, .continue =>
      some (s.goto t (if expected = .unlocked then .inside else .outside))
  | .unlockReturn, .continue => some (s.goto t .outside)
  | _, _ => none

/-- The lock as a system: any number of threads, any interleaving, any pattern of
spurious failures. -/
def system (Tid : Type) [DecidableEq Tid] : System (St Tid) (Tid × Act) where
  Init := fun s => s.lock = .unlocked ∧ ∀ t, s.pc t = .outside
  Next := fun l s s' => step l.1 l.2 s = some s'

/-! ## The contract -/

/-- No call is in progress: every thread is outside or inside. -/
def Quiescent (s : St Tid) : Prop :=
  ∀ t, s.pc t = .outside ∨ s.pc t = .inside

/-- At most one thread is inside, and at rest the word is `Locked` exactly when
exactly one thread is inside. -/
def Exclusive (s : St Tid) : Prop :=
  (∀ t u, s.pc t = .inside → s.pc u = .inside → t = u) ∧
  (Quiescent s → (s.lock = .locked ↔ ∃! t, s.pc t = .inside))

/-- The library's choice does not hurt: an exchange fails spuriously only where
the strong exchange would fail as well. -/
def NoSpuriousLoss (l : Tid × Act) (s : St Tid) : Prop :=
  l.2 = .exchange true → (s.pc l.1).expected ≠ some s.lock

instance (l : Tid × Act) (s : St Tid) : Decidable (NoSpuriousLoss l s) :=
  inferInstanceAs (Decidable (_ → _))

/-! ## The invariant -/

/-- The program counters at which a thread owns the lock: from the exchange that
took it to the exchange that gives it back. -/
def Owns : Pc → Prop
  | .lockTest .unlocked | .trylockTest .unlocked | .inside | .unlockCas => True
  | _ => False

/-- The word is `Locked` exactly while some thread owns the lock, and no two do. -/
structure Inv (s : St Tid) : Prop where
  owner_iff : s.lock = .locked ↔ ∃ t, Owns (s.pc t)
  unique : ∀ t u, Owns (s.pc t) → Owns (s.pc u) → t = u

theorem init_inv (s : St Tid) (hs : (system Tid).Init s) : Inv s := by
  rcases hs with ⟨hlock, hpc⟩
  constructor
  · simp [hlock, hpc, Owns]
  · intro t u ht
    simp [hpc, Owns] at ht

/-- A step that leaves the word and the ownership of its thread alone keeps the
invariant. -/
theorem Inv.goto (hinv : Inv s) (t : Tid) {p : Pc} (hp : Owns p ↔ Owns (s.pc t)) : Inv (s.goto t p) := by
  have howns : ∀ u, Owns ((s.goto t p).pc u) ↔ Owns (s.pc u) := by
    intro u
    by_cases hu : u = t
    · subst hu; simpa using hp
    · simp [hu]
  constructor
  · rw [St.goto_lock]
    simpa only [howns] using hinv.owner_iff
  · intro u w hu hw
    exact hinv.unique u w ((howns u).mp hu) ((howns w).mp hw)

/-- Taking the free lock. -/
theorem Inv.acquire (hinv : Inv s) (t : Tid) {p : Pc} (hfree : s.lock = .unlocked) (hp : Owns p) :
    Inv ({ s with lock := .locked }.goto t p) := by
  have hnone : ∀ u, ¬ Owns (s.pc u) := by
    intro u hu
    have := hinv.owner_iff.mpr ⟨u, hu⟩
    simp [hfree] at this
  have hown : ∀ u, Owns (Function.update s.pc t p u) → u = t := by
    intro u hu
    by_contra hne
    exact hnone u (by simpa [hne] using hu)
  constructor
  · simp only [St.goto_lock, St.goto_pc, true_iff]
    exact ⟨t, by simpa using hp⟩
  · intro u w hu hw
    exact (hown u hu).trans (hown w hw).symm

/-- Giving the lock back. -/
theorem Inv.release {s : St Tid} (hinv : Inv s) (t : Tid) {p : Pc}
    (hown : Owns (s.pc t)) (hp : ¬ Owns p) :
    Inv ({ s with lock := .unlocked }.goto t p) := by
  have hnone : ∀ u, ¬ Owns (Function.update s.pc t p u) := by
    intro u hu
    by_cases hut : u = t
    · subst hut; exact hp (by simpa using hu)
    · exact hut (hinv.unique u t (by simpa [hut] using hu) hown)
  constructor
  · simp only [St.goto_lock, St.goto_pc, reduceCtorEq, false_iff, not_exists]
    exact hnone
  · intro u w hu
    exact absurd hu (hnone u)

/-- An exchange at which `Unlocked` is expected, continued at `after expected`:
both calls that take the lock go through this step. -/
theorem Inv.exchange_take (hinv : Inv s) (t : Tid) (after : LockState → Pc)
    (hcas : ¬ Owns (s.pc t)) (hwon : Owns (after .unlocked)) (hlost : ¬ Owns (after .locked))
    {spurious : Bool} (hG : spurious = true → s.lock ≠ .unlocked) :
    Inv ({ s with lock := (compareExchangeWeak s.lock .unlocked .locked spurious).1 }.goto t
      (after (compareExchangeWeak s.lock .unlocked .locked spurious).2.1)) := by
  cases hlock : s.lock with
  | unlocked =>
    have hstrong : spurious = false := by
      cases spurious with
      | false => rfl
      | true => exact absurd hlock (hG rfl)
    have hcx : compareExchangeWeak .unlocked .unlocked .locked spurious =
        (.locked, .unlocked, true) := by simp [compareExchangeWeak, hstrong]
    rw [hcx]
    exact hinv.acquire t hlock hwon
  | locked =>
    -- spurious or not, the exchange fails and leaves `Locked` in `expected`
    have hcx : compareExchangeWeak .locked .unlocked .locked spurious =
        (.locked, .locked, false) := by cases spurious <;> rfl
    rw [hcx, ← hlock]
    exact hinv.goto t (by simp [hcas, hlock, hlost])

/-- The exchange of `cspin_unlock`, made by the owner. -/
theorem Inv.exchange_give (hinv : Inv s) (t : Tid) (hown : Owns (s.pc t))
    {spurious : Bool} (hG : spurious = true → s.lock ≠ .locked) :
    Inv ({ s with lock := (compareExchangeWeak s.lock .locked .unlocked spurious).1 }.goto t
      .unlockReturn) := by
  have hlock : s.lock = .locked := hinv.owner_iff.mpr ⟨t, hown⟩
  have hstrong : spurious = false := by
    cases spurious with
    | false => rfl
    | true => exact absurd hlock (hG rfl)
  have hcx : (compareExchangeWeak s.lock .locked .unlocked spurious).1 = .unlocked := by
    simp [compareExchangeWeak, hstrong, hlock]
  rw [hcx]
  exact hinv.release t hown (by simp [Owns])

theorem step_inv (l : Tid × Act) (s s' : St Tid) (hinv : Inv s)
    (hG : NoSpuriousLoss l s) (hstep : (system Tid).Next l s s') : Inv s' := by
  rcases l with ⟨t, a⟩
  -- the guard at an exchange, for the value the program counter expects
  have hguard : ∀ {spurious : Bool} {x : LockState}, a = .exchange spurious →
      (s.pc t).expected = some x → spurious = true → s.lock ≠ x := by
    intro spurious x ha hx hsp hlock
    exact hG (by simp [ha, hsp]) (by simp [hx, hlock])
  simp only [system, step] at hstep
  split at hstep <;> simp only [Option.some.injEq, reduceCtorEq] at hstep <;> subst hstep
  -- a call starts: the caller owns nothing before a lock, the lock before an unlock
  case h_1 hpc | h_2 hpc | h_3 hpc => exact hinv.goto t (by simp [hpc, Owns])
  case h_4 spurious hpc =>
    exact hinv.exchange_take t .lockTest (by simp [hpc, Owns]) (by simp [Owns]) (by simp [Owns])
      (hguard rfl (by rw [hpc]; rfl))
  case h_5 spurious hpc =>
    exact hinv.exchange_take t .trylockTest (by simp [hpc, Owns]) (by simp [Owns])
      (by simp [Owns]) (hguard rfl (by rw [hpc]; rfl))
  case h_6 spurious hpc =>
    exact hinv.exchange_give t (by simp [hpc, Owns]) (hguard rfl (by rw [hpc]; rfl))
  -- the tests move an owner inside and send everybody else back
  case h_7 expected hpc | h_8 expected hpc =>
    refine hinv.goto t ?_
    cases expected <;> simp [hpc, Owns]
  case h_9 hpc => exact hinv.goto t (by simp [hpc, Owns])

omit [DecidableEq Tid] in
theorem Inv.exclusive (hinv : Inv s) : Exclusive s := by
  have hown : ∀ t, s.pc t = .inside → Owns (s.pc t) := by
    intro t ht
    simp [ht, Owns]
  refine ⟨fun t u ht hu => hinv.unique t u (hown t ht) (hown u hu), fun hq => ?_⟩
  -- at rest, owning the lock is being inside
  have hins : ∀ t, Owns (s.pc t) → s.pc t = .inside := by
    intro t ht
    rcases hq t with h | h
    · simp [h, Owns] at ht
    · exact h
  rw [hinv.owner_iff]
  constructor
  · rintro ⟨t, ht⟩
    exact ⟨t, hins t ht, fun u hu => hinv.unique u t (hown u hu) ht⟩
  · rintro ⟨t, ht, _⟩
    exact ⟨t, hown t ht⟩

/-- Mutual exclusion in every run whose exchanges never fail spuriously on a word
that matches: it holds in every state the run goes through. -/
theorem mutual_exclusion {h : List ((Tid × Act) × St Tid)} {s : St Tid}
    (hr : Run (system Tid) h s) (hG : Steps NoSpuriousLoss h) : Always Exclusive h s := by
  have hinv := hr.always_of_steps init_inv step_inv hG
  exact ⟨hinv.1.exclusive, fun x hx => (hinv.2 x hx).exclusive⟩

/-! ## Concrete runs -/

/-- The free lock and two threads. -/
def twoThreads : St Bool := { lock := .unlocked, pc := fun _ => .outside }

theorem twoThreads_run (ls : List (Bool × Act)) {h : List ((Bool × Act) × St Bool)} {s : St Bool}
    (hx : exec (fun l => step l.1 l.2) ls [] twoThreads = some (h, s)) :
    Run (system Bool) h s := by
  have h0 : Run (system Bool) [] twoThreads := .init ⟨rfl, fun _ => rfl⟩
  exact h0.exec (fun _ _ _ hs => hs) hx

/-- One thread takes the lock while the other one's exchange fails, spuriously,
on the taken word. -/
def contendedSchedule : List (Bool × Act) :=
  [(true, .callLock), (false, .callLock), (true, .exchange false), (false, .exchange true),
    (true, .continue), (false, .continue)]

theorem mutual_exclusion_contended :
    ∃ h s, exec (fun l => step l.1 l.2) contendedSchedule [] twoThreads = some (h, s) ∧
      s.pc true = .inside ∧ s.pc false = .lockCas ∧ Always Exclusive h s := by
  refine ⟨_, _, rfl, rfl, rfl, mutual_exclusion (twoThreads_run contendedSchedule rfl) ?_⟩
  intro x hx
  simp only [List.mem_cons, List.not_mem_nil, or_false] at hx
  rcases hx with rfl | rfl | rfl | rfl | rfl | rfl <;> decide

/-- Both exchanges fail spuriously on the free word, and both tests read the
`Unlocked` that the failures left in `expected`. -/
theorem two_threads_inside :
    ¬ ∀ h s, Run (system Bool) h s → Always Exclusive h s := by
  intro hall
  have hrun := twoThreads_run [(true, .callLock), (false, .callLock),
    (true, .exchange true), (false, .exchange true), (true, .continue), (false, .continue)] rfl
  have hex := (hall _ _ hrun).1.1 true false rfl rfl
  cases hex

end SysProg.SpinLock
