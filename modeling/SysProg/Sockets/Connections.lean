import Mathlib.Tactic
import SysProg.Lib.Lts

/-!
# The connection lists of `task6-sockets/server.cc`

The main thread accepts connections and appends each to the list of a worker, in turns.
A worker copies its list, serves the connections of the copy, and when one terminates
overwrites the entry at the same index of the shared list; at the end of the pass it
removes what was overwritten. The system may give the number of a closed descriptor to
the next connection at once.

* `Entry`, `Worker`, `State` — lists of descriptors, with the connections they stand for;
* `step` — accepting, appending, and the critical sections of a worker;
* `Inv` — the copy is aligned with the shared list, the entries still to be served are
  those of open connections;
* `connections_kept` — no connection is lost or confused with another.
-/

namespace SysProg.Sockets.Connections

open Lts

/-! ## Model -/

/-- A descriptor in a list. `conn` is the connection that `accept` returned it for; no
step looks at it. -/
structure Entry where
  fd : ℤ
  conn : ℕ
deriving DecidableEq, Repr

/-- A worker: before the next look at its list, at index `i` of its copy, before the
marking of index `i`, and before the removal of marked entries. The connection on which
`process_request` returned false is remembered until the marking. -/
inductive WorkerPc where
  | waiting
  | visiting (i : ℕ)
  | marking (i : ℕ) (conn : Option ℕ)
  | compacting
deriving DecidableEq, Repr

/-- `ThreadArgs::sockets` of a worker, its copy of them, and the point it is at. -/
structure Worker where
  shared : List Entry
  sockets : List Entry
  pc : WorkerPc
deriving DecidableEq, Repr

structure State (N : ℕ) where
  worker : Fin N → Worker
  /-- the loop variable of `main` -/
  next : ℕ
  /-- the connection that `main` has accepted and not yet appended -/
  holding : Option Entry
  /-- the connection each descriptor is open for -/
  owner : ℤ → Option ℕ
  /-- the number of connections accepted so far -/
  accepted : ℕ
  /-- the connections on which `process_request` has returned false -/
  terminated : List ℕ

/-- What comes of a look at a connection: nothing to read, or a request for which
`process_request` returns true or, after closing the descriptor, false. -/
inductive Outcome where
  | unreadable
  | processed
  | terminated
deriving DecidableEq, Repr

inductive Label (N : ℕ) where
  | accept (fd : ℤ)
  | pushBack
  | copy (w : Fin N)
  | visit (w : Fin N) (outcome : Outcome)
  | mark (w : Fin N)
  | compact (w : Fin N)
deriving DecidableEq, Repr

variable {N : ℕ} {w : Fin N} {e : Entry}

def init (N : ℕ) : State N where
  worker _ := ⟨[], [], .waiting⟩
  next := 0
  holding := none
  owner _ := none
  accepted := 0
  terminated := []

@[simps]
def State.setWorker (s : State N) (w : Fin N) (worker : Worker) : State N :=
  { s with worker := Function.update s.worker w worker }

/-- `accept`: a new connection gets some descriptor that is not open. -/
def accept (fd : ℤ) (s : State N) : Option (State N) :=
  if s.holding = none ∧ 0 ≤ fd ∧ s.owner fd = none then
    some { s with
      holding := some ⟨fd, s.accepted⟩
      owner := Function.update s.owner fd (some s.accepted)
      accepted := s.accepted + 1 }
  else none

/-- The connection goes to the end of the list of the worker whose turn it is. -/
def pushBack (s : State N) : Option (State N) :=
  match s.holding with
  | none => none
  | some e =>
    if h : s.next < N then
      let worker := s.worker ⟨s.next, h⟩
      some { s.setWorker ⟨s.next, h⟩ { worker with shared := worker.shared ++ [e] } with
        next := (s.next + 1) % N
        holding := none }
    else none

/-- The empty check, and the copy when there are connections. -/
def copy (w : Fin N) (s : State N) : Option (State N) :=
  let worker := s.worker w
  match worker.pc with
  | .waiting =>
    if worker.shared = [] then some s
    else some (s.setWorker w ⟨worker.shared, worker.shared, .visiting 0⟩)
  | _ => none

/-- One round of the loop over the copy. -/
def visit (w : Fin N) (outcome : Outcome) (s : State N) : Option (State N) :=
  let worker := s.worker w
  match worker.pc with
  | .visiting i =>
    match worker.sockets[i]? with
    | none => some (s.setWorker w { worker with pc := .compacting })
    | some e =>
      if e.fd < 0 then some (s.setWorker w { worker with pc := .visiting (i + 1) })
      else
        match outcome with
        | .unreadable | .processed =>
          some (s.setWorker w { worker with pc := .visiting (i + 1) })
        | .terminated =>
          -- `close(fd)`: the descriptor may be given to another connection from now on
          some { s.setWorker w { worker with pc := .marking i (s.owner e.fd) } with
            owner := Function.update s.owner e.fd none
            terminated := (s.owner e.fd).toList ++ s.terminated }
  | _ => none

/-- `args.sockets[i] = -1`. -/
def mark (w : Fin N) (s : State N) : Option (State N) :=
  let worker := s.worker w
  match worker.pc with
  | .marking i _ =>
    match worker.shared[i]? with
    | none => none
    | some e => some (s.setWorker w { worker with
        shared := worker.shared.set i ⟨-1, e.conn⟩
        pc := .visiting (i + 1) })
  | _ => none

/-- `remove_if` and `erase`. -/
def compact (w : Fin N) (s : State N) : Option (State N) :=
  let worker := s.worker w
  match worker.pc with
  | .compacting => some (s.setWorker w { worker with
      shared := worker.shared.filter fun e => e.fd ≠ -1
      pc := .waiting })
  | _ => none

def step : Label N → State N → Option (State N)
  | .accept fd, s => accept fd s
  | .pushBack, s => pushBack s
  | .copy w, s => copy w s
  | .visit w outcome, s => visit w outcome s
  | .mark w, s => mark w s
  | .compact w, s => compact w s

/-- The main thread and all workers, in every interleaving. -/
def system (N : ℕ) : System (State N) (Label N) where
  Init s := s = init N
  Next l s s' := step l s = some s'

/-! ## Invariant -/

/-- The entry of an open connection. -/
structure Live (s : State N) (e : Entry) : Prop where
  fd : 0 ≤ e.fd
  owner : s.owner e.fd = some e.conn
  running : e.conn ∉ s.terminated

/-- The entry of a terminated connection, overwritten. -/
structure Marked (s : State N) (e : Entry) : Prop where
  fd : e.fd = -1
  terminated : e.conn ∈ s.terminated

/-- The pass over a copy has got to index `i`: what comes from there on is open and the
same in both lists. The entry at `skip` is left out. -/
structure Pass (s : State N) (shared sockets : List Entry) (i : ℕ) (skip : Option ℕ) :
    Prop where
  done : ∀ j e, some j ≠ skip → shared[j]? = some e → j < i → Live s e ∨ Marked s e
  ahead : ∀ j e, some j ≠ skip → shared[j]? = some e → i ≤ j → Live s e
  aligned : ∀ j e, some j ≠ skip → sockets[j]? = some e → i ≤ j → shared[j]? = some e

/-- The entry of a connection that has terminated but is not marked yet. -/
structure Closed (s : State N) (shared : List Entry) (i : ℕ) (e : Entry) : Prop where
  entry : shared[i]? = some e
  fd : 0 ≤ e.fd
  terminated : e.conn ∈ s.terminated

/-- What holds of the lists of a worker at each of its program points. -/
def WorkerOk (s : State N) (worker : Worker) : Prop :=
  match worker.pc with
  | .waiting => ∀ e ∈ worker.shared, Live s e
  | .visiting i => Pass s worker.shared worker.sockets i none
  | .marking i conn => Pass s worker.shared worker.sockets i (some i) ∧
      ∃ e, Closed s worker.shared i e ∧ conn = some e.conn
  | .compacting => ∀ e ∈ worker.shared, Live s e ∨ Marked s e

/-- Every connection is in one place: with the main thread, or in one list, once. -/
structure Placed (s : State N) : Prop where
  heldBound : ∀ e, s.holding = some e → e.conn < s.accepted
  bound : ∀ w, ∀ e ∈ (s.worker w).shared, e.conn < s.accepted
  terminatedBound : ∀ c ∈ s.terminated, c < s.accepted
  nodup : ∀ w, ((s.worker w).shared.map Entry.conn).Nodup
  disjoint : ∀ w w', w ≠ w' → ∀ e ∈ (s.worker w).shared, ∀ e' ∈ (s.worker w').shared,
    e.conn ≠ e'.conn
  fresh : ∀ e, s.holding = some e → ∀ w, ∀ e' ∈ (s.worker w).shared, e'.conn ≠ e.conn
  complete : ∀ c < s.accepted, c ∉ s.terminated →
    (∃ e, s.holding = some e ∧ e.conn = c) ∨ ∃ w, ∃ e ∈ (s.worker w).shared, e.conn = c

structure Inv (s : State N) : Prop where
  worker : ∀ w, WorkerOk s (s.worker w)
  held : ∀ e, s.holding = some e → Live s e
  placed : Placed s

variable {s s' : State N} {worker : Worker}

theorem WorkerOk.imp (hok : WorkerOk s worker) (hlive : ∀ e ∈ worker.shared, Live s e → Live s' e)
    (hterminated : ∀ c ∈ s.terminated, c ∈ s'.terminated) : WorkerOk s' worker := by
  have hmarked : ∀ e, Marked s e → Marked s' e := fun e h => ⟨h.fd, hterminated _ h.terminated⟩
  -- the lists stay, so a pass does
  have hpass : ∀ i skip, Pass s worker.shared worker.sockets i skip →
      Pass s' worker.shared worker.sockets i skip := by
    intro i skip h
    refine ⟨?_, ?_, h.aligned⟩
    · intro j e hskip he hj
      rcases h.done j e hskip he hj with h | h
      · exact .inl (hlive e (List.mem_of_getElem? he) h)
      · exact .inr (hmarked e h)
    · intro j e hskip he hj
      exact hlive e (List.mem_of_getElem? he) (h.ahead j e hskip he hj)
  rcases worker with ⟨shared, sockets, pc⟩
  cases pc with
  | waiting => exact fun e he => hlive e he (hok e he)
  | visiting => exact hpass _ _ hok
  | marking =>
    rcases hok with ⟨h, e, hclosed, hconn⟩
    exact ⟨hpass _ _ h, e, ⟨hclosed.entry, hclosed.fd, hterminated _ hclosed.terminated⟩, hconn⟩
  | compacting =>
    intro e he
    rcases hok e he with h | h
    · exact .inl (hlive e he h)
    · exact .inr (hmarked e h)

/-! ## One list changes -/

/-- A list that only lost entries of terminated connections. -/
structure Shrinks (s : State N) (old new : List Entry) : Prop where
  sublist : (new.map Entry.conn).Sublist (old.map Entry.conn)
  kept : ∀ e ∈ old, e.conn ∉ s.terminated → ∃ e' ∈ new, e'.conn = e.conn

theorem Shrinks.refl (s : State N) (list : List Entry) : Shrinks s list list :=
  ⟨List.Sublist.refl _, fun e he _ => ⟨e, he, rfl⟩⟩

theorem Shrinks.exists_old {old new : List Entry} (h : Shrinks s old new)
    (he : e ∈ new) : ∃ e' ∈ old, e'.conn = e.conn :=
  List.mem_map.mp (h.sublist.subset (List.mem_map_of_mem he))

theorem Placed.setWorker (hplaced : Placed s)
    (hshrinks : Shrinks s (s.worker w).shared worker.shared) :
    Placed (s.setWorker w worker) := by
  -- what is in a list afterwards was in the same list before
  have hold : ∀ w', ∀ e ∈ ((s.setWorker w worker).worker w').shared,
      ∃ e' ∈ (s.worker w').shared, e'.conn = e.conn := by
    intro w' e he
    by_cases heq : w' = w
    · subst heq
      exact hshrinks.exists_old (by simpa using he)
    · exact ⟨e, by simpa [heq] using he, rfl⟩
  refine ⟨hplaced.heldBound, ?_, hplaced.terminatedBound, ?_, ?_, ?_, ?_⟩
  · intro w' e he
    rcases hold w' e he with ⟨e', he', hconn⟩
    rw [← hconn]
    exact hplaced.bound w' e' he'
  · intro w'
    by_cases heq : w' = w
    · subst heq
      simpa using (hplaced.nodup w').sublist hshrinks.sublist
    · simpa [heq] using hplaced.nodup w'
  · intro w₁ w₂ hne e₁ he₁ e₂ he₂
    rcases hold w₁ e₁ he₁ with ⟨e₁', he₁', hconn₁⟩
    rcases hold w₂ e₂ he₂ with ⟨e₂', he₂', hconn₂⟩
    rw [← hconn₁, ← hconn₂]
    exact hplaced.disjoint w₁ w₂ hne e₁' he₁' e₂' he₂'
  · intro e he w' e' he'
    rcases hold w' e' he' with ⟨e₀, he₀, hconn⟩
    rw [← hconn]
    exact hplaced.fresh e he w' e₀ he₀
  · intro c hc hrunning
    rcases hplaced.complete c hc hrunning with hheld | ⟨w', e, he, rfl⟩
    · exact .inl hheld
    · refine .inr ⟨w', ?_⟩
      by_cases heq : w' = w
      · subst heq
        simpa using hshrinks.kept e he hrunning
      · exact ⟨e, by simpa [heq] using he, rfl⟩

theorem Inv.setWorker (hinv : Inv s) (hok : WorkerOk s worker)
    (hshrinks : Shrinks s (s.worker w).shared worker.shared) :
    Inv (s.setWorker w worker) := by
  have hlive : ∀ e, Live s e → Live (s.setWorker w worker) e :=
    fun e h => ⟨h.fd, h.owner, h.running⟩
  refine ⟨?_, fun e he => hlive e (hinv.held e he), hinv.placed.setWorker hshrinks⟩
  intro w'
  by_cases heq : w' = w
  · subst heq
    simpa using hok.imp (fun e _ => hlive e) fun c hc => hc
  · simpa [heq] using (hinv.worker w').imp (fun e _ => hlive e) fun c hc => hc

/-! ## The main thread -/

theorem accept_inv {fd : ℤ} (hinv : Inv s) (h : accept fd s = some s') : Inv s' := by
  unfold accept at h
  split at h
  · rename_i hcond
    rcases hcond with ⟨hholding, hfd, hfree⟩
    rcases Option.some.inj h with rfl
    have hnew : s.accepted ∉ s.terminated := fun hmem =>
      absurd (hinv.placed.terminatedBound _ hmem) (Nat.lt_irrefl _)
    -- the descriptor was free, so no open connection has it
    have hlive : ∀ e, Live s e → Live { s with
        holding := some ⟨fd, s.accepted⟩
        owner := Function.update s.owner fd (some s.accepted)
        accepted := s.accepted + 1 } e := by
      intro e he
      have hne : e.fd ≠ fd := by
        intro heq
        have howner := he.owner
        rw [heq, hfree] at howner
        exact absurd howner (by simp)
      exact ⟨he.fd, (Function.update_of_ne hne _ _).trans he.owner, he.running⟩
    refine ⟨fun w => (hinv.worker w).imp (fun e _ => hlive e) fun c hc => hc, ?_, ?_⟩
    · intro e he
      rcases Option.some.inj he with rfl
      exact ⟨hfd, Function.update_self _ _ _, hnew⟩
    · refine ⟨?_, ?_, ?_, hinv.placed.nodup, hinv.placed.disjoint, ?_, ?_⟩
      · intro e he
        rcases Option.some.inj he with rfl
        exact Nat.lt_succ_self _
      · exact fun w e he => Nat.lt_succ_of_lt (hinv.placed.bound w e he)
      · exact fun c hc => Nat.lt_succ_of_lt (hinv.placed.terminatedBound c hc)
      · intro e he w e' he'
        rcases Option.some.inj he with rfl
        exact Nat.ne_of_lt (hinv.placed.bound w e' he')
      · intro c hc hrunning
        rcases Nat.lt_succ_iff_lt_or_eq.mp hc with hlt | rfl
        · rcases hinv.placed.complete c hlt hrunning with ⟨e, he, _⟩ | hlist
          · rw [hholding] at he
            exact absurd he (by simp)
          · exact .inr hlist
        · exact .inl ⟨_, rfl, rfl⟩
  · exact absurd h (by simp)

/-- A worker at any point goes on with one more open connection at the end of its list. -/
theorem WorkerOk.append (hok : WorkerOk s worker) (he : Live s e) :
    WorkerOk s { worker with shared := worker.shared ++ [e] } := by
  have hmem : ∀ x ∈ worker.shared ++ [e], x ∈ worker.shared ∨ x = e := by simp
  have hget : ∀ (j : ℕ) (x : Entry), (worker.shared ++ [e])[j]? = some x →
      worker.shared[j]? = some x ∨ x = e := by
    intro j x hx
    rw [List.getElem?_append] at hx
    split at hx
    · exact .inl hx
    · exact .inr (List.mem_singleton.mp (List.mem_of_getElem? hx))
  have hold : ∀ (j : ℕ) (x : Entry), worker.shared[j]? = some x → (worker.shared ++ [e])[j]? = some x := by
    intro j x hx
    rw [List.getElem?_append_left (List.getElem?_eq_some_iff.mp hx).1]
    exact hx
  have hpass : ∀ i skip, Pass s worker.shared worker.sockets i skip →
      Pass s (worker.shared ++ [e]) worker.sockets i skip := by
    intro i skip h
    refine ⟨?_, ?_, fun j x hskip hx hj => hold j x (h.aligned j x hskip hx hj)⟩
    · intro j x hskip hx hj
      rcases hget j x hx with hx | rfl
      · exact h.done j x hskip hx hj
      · exact .inl he
    · intro j x hskip hx hj
      rcases hget j x hx with hx | rfl
      · exact h.ahead j x hskip hx hj
      · exact he
  rcases worker with ⟨shared, sockets, pc⟩
  cases pc with
  | waiting =>
    intro x hx
    rcases hmem x hx with hx | rfl
    · exact hok x hx
    · exact he
  | visiting => exact hpass _ _ hok
  | marking i conn =>
    -- the index of the marking stays that of the closed entry
    rcases hok with ⟨h, x, hclosed, hconn⟩
    exact ⟨hpass _ _ h, x, ⟨hold i x hclosed.entry, hclosed.fd, hclosed.terminated⟩, hconn⟩
  | compacting =>
    intro x hx
    rcases hmem x hx with hx | rfl
    · exact hok x hx
    · exact .inl he

/-- The state after `push_back` of `e` to the list of `w`. -/
def State.append (s : State N) (w : Fin N) (e : Entry) : State N :=
  s.setWorker w { s.worker w with shared := (s.worker w).shared ++ [e] }

theorem mem_append {w w' : Fin N} {e x : Entry} (h : x ∈ ((s.append w e).worker w').shared) :
    x ∈ (s.worker w').shared ∨ (w' = w ∧ x = e) := by
  by_cases heq : w' = w
  · subst heq
    simpa [State.append] using h
  · exact .inl (by simpa [State.append, heq] using h)

theorem append_mem {w w' : Fin N} {e x : Entry} (h : x ∈ (s.worker w').shared) :
    x ∈ ((s.append w e).worker w').shared := by
  by_cases heq : w' = w
  · subst heq
    simp [State.append, h]
  · simpa [State.append, heq] using h

theorem append_self : e ∈ ((s.append w e).worker w).shared := by
  simp [State.append]

theorem Placed.pushBack (hplaced : Placed s) (hholding : s.holding = some e)
    (w : Fin N) (next : ℕ) :
    Placed { s.append w e with next := next, holding := none } := by
  refine ⟨fun _ h => absurd h (by simp), ?_, hplaced.terminatedBound, ?_, ?_,
    fun _ h => absurd h (by simp), ?_⟩
  · intro w' x hx
    rcases mem_append hx with hx | ⟨_, rfl⟩
    · exact hplaced.bound w' x hx
    · exact hplaced.heldBound x hholding
  · intro w'
    by_cases heq : w' = w
    · subst heq
      simp only [State.append, State.setWorker_worker, Function.update_self, List.map_append,
        List.nodup_append]
      refine ⟨hplaced.nodup w', List.nodup_singleton _, ?_⟩
      intro c hc c' hc'
      rcases List.mem_map.mp hc with ⟨x, hx, rfl⟩
      rw [List.map_singleton, List.mem_singleton] at hc'
      rw [hc']
      exact hplaced.fresh e hholding w' x hx
    · simpa [State.append, heq] using hplaced.nodup w'
  · intro w₁ w₂ hne e₁ he₁ e₂ he₂
    -- the new entry is in one list only and new in all others
    rcases mem_append he₁ with hold₁ | ⟨hw₁, heq₁⟩ <;>
      rcases mem_append he₂ with hold₂ | ⟨hw₂, heq₂⟩
    · exact hplaced.disjoint w₁ w₂ hne e₁ hold₁ e₂ hold₂
    · rw [heq₂]
      exact hplaced.fresh e hholding w₁ e₁ hold₁
    · rw [heq₁]
      exact (hplaced.fresh e hholding w₂ e₂ hold₂).symm
    · exact absurd (hw₁.trans hw₂.symm) hne
  · intro c hc hrunning
    rcases hplaced.complete c hc hrunning with ⟨x, hx, rfl⟩ | ⟨w', x, hx, rfl⟩
    · rcases Option.some.inj (hholding.symm.trans hx) with rfl
      exact .inr ⟨w, e, append_self, rfl⟩
    · exact .inr ⟨w', x, append_mem hx, rfl⟩

theorem pushBack_inv (hinv : Inv s) (h : pushBack s = some s') : Inv s' := by
  unfold pushBack at h
  split at h
  · exact absurd h (by simp)
  · rename_i e hholding
    split at h
    · rename_i hnext
      rcases Option.some.inj h with rfl
      refine ⟨?_, fun _ h => absurd h (by simp), hinv.placed.pushBack hholding _ _⟩
      intro w
      -- no descriptor changes its owner
      have hlive : ∀ x, Live s x → Live { s.append ⟨s.next, hnext⟩ e with
          next := (s.next + 1) % N, holding := none } x :=
        fun x h => ⟨h.fd, h.owner, h.running⟩
      by_cases heq : w = ⟨s.next, hnext⟩
      · subst heq
        simp only [State.setWorker_worker, Function.update_self]
        exact ((hinv.worker _).append (hinv.held e hholding)).imp (fun x _ => hlive x)
          fun c hc => hc
      · simp only [State.setWorker_worker, Function.update_of_ne heq]
        exact (hinv.worker w).imp (fun x _ => hlive x) fun c hc => hc
    · exact absurd h (by simp)

/-! ## Workers -/

theorem copy_inv (hinv : Inv s) (h : copy w s = some s') : Inv s' := by
  have hok := hinv.worker w
  simp only [copy] at h
  split at h
  · rename_i hpc
    simp only [WorkerOk, hpc] at hok
    rcases ite_eq_iff.mp h with ⟨-, ⟨⟩⟩ | ⟨-, ⟨⟩⟩
    · exact hinv
    · refine hinv.setWorker ?_ (.refl s _)
      show Pass s (s.worker w).shared (s.worker w).shared 0 none
      refine ⟨fun j e _ _ hj => absurd hj (Nat.not_lt_zero j), ?_, fun j e _ he _ => he⟩
      intro j e _ he _
      exact hok e (List.mem_of_getElem? he)
  · exact absurd h (by simp)

/-- The pass goes on behind an entry that stays open. -/
theorem Pass.next {i : ℕ} {shared sockets : List Entry} (h : Pass s shared sockets i none) :
    Pass s shared sockets (i + 1) none := by
  refine ⟨?_, ?_, ?_⟩
  · intro j e hskip he hj
    rcases Nat.lt_succ_iff_lt_or_eq.mp hj with hlt | rfl
    · exact h.done j e hskip he hlt
    · exact .inl (h.ahead j e hskip he (Nat.le_refl j))
  · exact fun j e hskip he hj => h.ahead j e hskip he (Nat.le_of_succ_le hj)
  · exact fun j e hskip he hj => h.aligned j e hskip he (Nat.le_of_succ_le hj)

/-- At the end of the copy all entries of the shared list are open or marked. -/
theorem Pass.all {i : ℕ} {shared sockets : List Entry} (h : Pass s shared sockets i none)
    {e : Entry} (he : e ∈ shared) : Live s e ∨ Marked s e := by
  rcases List.mem_iff_getElem?.mp he with ⟨j, hj⟩
  rcases Nat.lt_or_ge j i with hlt | hge
  · exact h.done j e (by simp) hj hlt
  · exact .inl (h.ahead j e (by simp) hj hge)

/-- Two entries of a list that stand for the same connection are one. -/
theorem Placed.index_eq (hplaced : Placed s) {i j : ℕ} {x y : Entry}
    (hx : (s.worker w).shared[i]? = some x) (hy : (s.worker w).shared[j]? = some y)
    (hconn : x.conn = y.conn) : i = j := by
  have hi : i < ((s.worker w).shared.map Entry.conn).length := by
    rw [List.length_map]
    exact (List.getElem?_eq_some_iff.mp hx).1
  refine (List.getElem?_inj hi (hplaced.nodup w)).mp ?_
  rw [List.getElem?_map, List.getElem?_map, hx, hy, Option.map_some, Option.map_some, hconn]

theorem Placed.terminate (hplaced : Placed s) {c : ℕ} (hc : c < s.accepted) (owner : ℤ → Option ℕ) :
    Placed { s with owner := owner, terminated := c :: s.terminated } := by
  refine ⟨hplaced.heldBound, hplaced.bound, ?_, hplaced.nodup, hplaced.disjoint,
    hplaced.fresh, ?_⟩
  · intro c' hc'
    rcases List.mem_cons.mp hc' with rfl | hc'
    · exact hc
    · exact hplaced.terminatedBound c' hc'
  · intro c' hc' hrunning
    exact hplaced.complete c' hc' fun h => hrunning (List.mem_cons_of_mem c h)

/-- `process_request` returns false on the connection of the current entry: every other
open connection stays open, whatever becomes of the descriptor. -/
theorem terminate_inv {i : ℕ} (hinv : Inv s)
    (hpc : (s.worker w).pc = .visiting i) (hsocket : (s.worker w).sockets[i]? = some e) :
    Inv { s.setWorker w { s.worker w with pc := .marking i (s.owner e.fd) } with
      owner := Function.update s.owner e.fd none
      terminated := (s.owner e.fd).toList ++ s.terminated } := by
  have hpass : Pass s (s.worker w).shared (s.worker w).sockets i none := by
    have hok := hinv.worker w
    simpa only [WorkerOk, hpc] using hok
  have hshared := hpass.aligned i e (by simp) hsocket (Nat.le_refl i)
  have hopen := hpass.ahead i e (by simp) hshared (Nat.le_refl i)
  have hmem := List.mem_of_getElem? hshared
  rw [hopen.owner]
  -- an open connection other than this one keeps its descriptor
  have hlive : ∀ x, x.conn ≠ e.conn → Live s x → Live { s.setWorker w { s.worker w with
      pc := .marking i (some e.conn) } with
      owner := Function.update s.owner e.fd none
      terminated := (some e.conn).toList ++ s.terminated } x := by
    intro x hne hx
    have hfd : x.fd ≠ e.fd := by
      intro heq
      have howner := hx.owner
      rw [heq, hopen.owner] at howner
      exact hne (Option.some.inj howner).symm
    refine ⟨hx.fd, (Function.update_of_ne hfd _ _).trans hx.owner, ?_⟩
    intro hterminated
    rcases List.mem_cons.mp hterminated with h | h
    · exact hne h
    · exact hx.running h
  have hterminated : ∀ c ∈ s.terminated, c ∈ (some e.conn).toList ++ s.terminated :=
    fun c hc => List.mem_append_right _ hc
  -- entries at other indices of the list are for other connections
  have hother : ∀ (j : ℕ) (x : Entry), some j ≠ some i →
      (s.worker w).shared[j]? = some x → x.conn ≠ e.conn := by
    intro j x hj hx hconn
    exact hj (congrArg some (hinv.placed.index_eq hx hshared hconn))
  have hplaced : Placed (s.setWorker w { s.worker w with pc := .marking i (some e.conn) }) :=
    hinv.placed.setWorker (.refl s _)
  refine ⟨?_, ?_, hplaced.terminate (hinv.placed.bound w e hmem) _⟩
  · intro w'
    by_cases heq : w' = w
    · subst heq
      simp only [State.setWorker_worker, Function.update_self]
      refine ⟨⟨?_, ?_, ?_⟩, e, ⟨hshared, hopen.fd, List.mem_cons_self⟩, rfl⟩
      · intro j x hj hx hlt
        rcases hpass.done j x (by simp) hx hlt with h | h
        · exact .inl (hlive x (hother j x hj hx) h)
        · exact .inr ⟨h.fd, hterminated _ h.terminated⟩
      · intro j x hj hx hge
        exact hlive x (hother j x hj hx) (hpass.ahead j x (by simp) hx hge)
      · exact fun j x _ hx hge => hpass.aligned j x (by simp) hx hge
    · simp only [State.setWorker_worker, Function.update_of_ne heq]
      refine (hinv.worker w').imp (fun x hx => hlive x ?_) hterminated
      exact hinv.placed.disjoint w' w heq x hx e hmem
  · intro x hx
    exact hlive x (hinv.placed.fresh x hx w e hmem).symm (hinv.held x hx)

theorem visit_inv {outcome : Outcome} (hinv : Inv s) (h : visit w outcome s = some s') : Inv s' := by
  have hok := hinv.worker w
  simp only [visit] at h
  split at h
  · rename_i i hpc
    have hpass : Pass s (s.worker w).shared (s.worker w).sockets i none := by
      simpa only [WorkerOk, hpc] using hok
    have hnext : Inv (s.setWorker w { s.worker w with pc := .visiting (i + 1) }) :=
      hinv.setWorker hpass.next (.refl s _)
    split at h
    · -- the copy ends here
      rcases Option.some.inj h with rfl
      exact hinv.setWorker (fun e he => hpass.all he) (.refl s _)
    · rename_i e hsocket
      split at h
      · -- marked in an earlier pass
        cases h
        exact hnext
      · split at h
        · cases h
          exact hnext
        · cases h
          exact hnext
        · cases h
          exact terminate_inv hinv hpc hsocket
  · cases h

theorem mark_inv (hinv : Inv s) (h : mark w s = some s') : Inv s' := by
  have hok := hinv.worker w
  simp only [mark] at h
  split at h
  · rename_i i conn hpc
    simp only [WorkerOk, hpc] at hok
    rcases hok with ⟨hpass, e, hclosed, -⟩
    rw [hclosed.entry] at h
    rcases Option.some.inj h with rfl
    have hlen : i < (s.worker w).shared.length := (List.getElem?_eq_some_iff.mp hclosed.entry).1
    -- the entry keeps its connection, only the descriptor is cleared
    have hconns : ((s.worker w).shared.set i ⟨-1, e.conn⟩).map Entry.conn =
        (s.worker w).shared.map Entry.conn := by
      refine List.ext_getElem? fun j => ?_
      rw [List.getElem?_map, List.getElem?_map, List.getElem?_set]
      split
      · rename_i heq
        rw [← heq, hclosed.entry]
        rfl
      · rfl
    have hget : ∀ (j : ℕ) (x : Entry), some j ≠ some i →
        ((s.worker w).shared.set i ⟨-1, e.conn⟩)[j]? = some x →
        (s.worker w).shared[j]? = some x := by
      intro j x hj hx
      rw [List.getElem?_set_ne (fun heq => hj (congrArg some heq.symm))] at hx
      exact hx
    refine hinv.setWorker ⟨?_, ?_, ?_⟩ ⟨?_, ?_⟩
    · -- `done`: the marked entry is behind the worker now
      intro j x _ hx hj
      by_cases heq : j = i
      · subst heq
        rw [List.getElem?_set_self hlen] at hx
        rcases Option.some.inj hx with rfl
        exact .inr ⟨rfl, hclosed.terminated⟩
      · have hne : some j ≠ some i := fun h => heq (Option.some.inj h)
        exact hpass.done j x hne (hget j x hne hx) (by omega)
    · intro j x _ hx hj
      have hne : some j ≠ some i := fun h => absurd (Option.some.inj h) (by omega)
      exact hpass.ahead j x hne (hget j x hne hx) (by omega)
    · intro j x _ hx hj
      have hne : some j ≠ some i := fun h => absurd (Option.some.inj h) (by omega)
      rw [List.getElem?_set_ne (by omega)]
      exact hpass.aligned j x hne hx (by omega)
    · rw [hconns]
    · intro x hx _
      have hmem : x.conn ∈ ((s.worker w).shared.set i ⟨-1, e.conn⟩).map Entry.conn := by
        rw [hconns]
        exact List.mem_map_of_mem hx
      exact List.mem_map.mp hmem
  · exact absurd h (by simp)

theorem compact_inv (hinv : Inv s) (h : compact w s = some s') : Inv s' := by
  have hok := hinv.worker w
  simp only [compact] at h
  split at h
  · rename_i hpc
    simp only [WorkerOk, hpc] at hok
    rcases Option.some.inj h with rfl
    refine hinv.setWorker ?_ ⟨?_, ?_⟩
    · intro e he
      rcases List.mem_filter.mp he with ⟨hmem, hfd⟩
      rcases hok e hmem with hlive | hmarked
      · exact hlive
      · exact absurd hmarked.fd (by simpa using hfd)
    · exact List.filter_sublist.map Entry.conn
    · -- a running connection has a descriptor, and stays
      intro e he hrunning
      rcases hok e he with hlive | hmarked
      · have hfd : e.fd ≠ -1 := fun heq => absurd hlive.fd (by omega)
        exact ⟨e, List.mem_filter.mpr ⟨he, by simpa using hfd⟩, rfl⟩
      · exact absurd hmarked.terminated hrunning
  · exact absurd h (by simp)

/-! ## Results -/

theorem init_inv : Inv (init N) := by
  refine ⟨?_, fun e he => absurd he (by simp [init]), ?_⟩
  · intro w e he
    exact absurd he (by simp [init])
  · refine ⟨fun e he => absurd he (by simp [init]), fun w e he => absurd he (by simp [init]),
      fun c hc => absurd hc (by simp [init]), fun w => List.nodup_nil,
      fun w w' _ e he => absurd he (by simp [init]), fun e he => absurd he (by simp [init]),
      fun c hc => absurd hc (Nat.not_lt_zero c)⟩

theorem step_inv {l : Label N} (hinv : Inv s) (h : step l s = some s') : Inv s' := by
  cases l with
  | accept => exact accept_inv hinv h
  | pushBack => exact pushBack_inv hinv h
  | copy => exact copy_inv hinv h
  | visit => exact visit_inv hinv h
  | mark => exact mark_inv hinv h
  | compact => exact compact_inv hinv h

theorem reachable_inv (hr : Reachable (system N) s) : Inv s := by
  have hinit : ∀ s, (system N).Init s → Inv s := by
    rintro s rfl
    exact init_inv
  exact hr.invariant hinit fun l s s' hinv hnext => step_inv hinv hnext

/-- Connection `c` has been appended to the list of a worker. -/
def State.Queued (s : State N) (c : ℕ) : Prop :=
  c < s.accepted ∧ ∀ e, s.holding = some e → e.conn ≠ c

/-- The steps that a worker has left in its pass. -/
def Worker.remaining (worker : Worker) : ℕ :=
  match worker.pc with
  | .waiting => 0
  | .visiting i => 2 * (worker.sockets.length - i) + 2
  | .marking i _ => 2 * (worker.sockets.length - (i + 1)) + 3
  | .compacting => 1

/-- What the lists are for, in one state: a marking meets the entry of the connection that
terminated, the removal takes the entries of all terminated connections and no others, a
running connection is in the lists once and its descriptor is its own, and between passes
there are no others. The main thread can append what it has accepted; a worker begins a pass
when it has connections, and in a pass it always has its next step, up to the removal. -/
structure Kept (s : State N) : Prop where
  marks : ∀ w s', mark w s = some s' → ∃ i e, (s.worker w).pc = .marking i (some e.conn) ∧
    (s.worker w).shared[i]? = some e ∧ 0 ≤ e.fd ∧ e.conn ∈ s.terminated ∧
    s' = s.setWorker w { s.worker w with
      shared := (s.worker w).shared.set i ⟨-1, e.conn⟩, pc := .visiting (i + 1) }
  compacts : ∀ w s', compact w s = some s' →
    (∀ e ∈ (s.worker w).shared, e.fd = -1 ↔ e.conn ∈ s.terminated) ∧
    s' = s.setWorker w { s.worker w with
      shared := (s.worker w).shared.filter fun e => e.fd ≠ -1, pc := .waiting }
  once : ∀ c, s.Queued c → c ∉ s.terminated →
    ∃! place : Fin N × ℕ, ((s.worker place.1).shared[place.2]?).map Entry.conn = some c
  own : ∀ w, ∀ e ∈ (s.worker w).shared, e.conn ∉ s.terminated →
    0 ≤ e.fd ∧ s.owner e.fd = some e.conn
  gone : ∀ w, (s.worker w).pc = .waiting → ∀ e ∈ (s.worker w).shared, e.conn ∉ s.terminated
  pushes : 0 < N → ∀ e, s.holding = some e → ∃ (h : s.next < N) (s' : State N),
    pushBack s = some s' ∧ s'.holding = none ∧
    (s'.worker ⟨s.next, h⟩).shared = (s.worker ⟨s.next, h⟩).shared ++ [e]
  copies : ∀ w, (s.worker w).pc = .waiting → (s.worker w).shared ≠ [] → ∃ s',
    copy w s = some s' ∧ s'.worker w = ⟨(s.worker w).shared, (s.worker w).shared, .visiting 0⟩
  proceeds : ∀ w outcome, (s.worker w).pc ≠ .waiting →
    ∃ l ∈ [.visit w outcome, .mark w, .compact w], ∃ s', step l s = some s' ∧
      (s'.worker w).remaining < (s.worker w).remaining

theorem Inv.marks (hinv : Inv s) {w : Fin N} (h : mark w s = some s') :
    ∃ i e, (s.worker w).pc = .marking i (some e.conn) ∧
      (s.worker w).shared[i]? = some e ∧ 0 ≤ e.fd ∧ e.conn ∈ s.terminated ∧
      s' = s.setWorker w { s.worker w with
        shared := (s.worker w).shared.set i ⟨-1, e.conn⟩, pc := .visiting (i + 1) } := by
  have hok := hinv.worker w
  simp only [mark] at h
  split at h
  · rename_i i conn hpc
    simp only [WorkerOk, hpc] at hok
    rcases hok with ⟨-, e, hclosed, hconn⟩
    rw [hclosed.entry] at h
    exact ⟨i, e, hconn ▸ hpc, hclosed.entry, hclosed.fd, hclosed.terminated,
      (Option.some.inj h).symm⟩
  · exact absurd h (by simp)

theorem Inv.compacts (hinv : Inv s) (h : compact w s = some s') :
    (∀ e ∈ (s.worker w).shared, e.fd = -1 ↔ e.conn ∈ s.terminated) ∧
    s' = s.setWorker w { s.worker w with
      shared := (s.worker w).shared.filter fun e => e.fd ≠ -1, pc := .waiting } := by
  have hok := hinv.worker w
  simp only [compact] at h
  split at h
  · rename_i hpc
    simp only [WorkerOk, hpc] at hok
    refine ⟨?_, (Option.some.inj h).symm⟩
    intro e he
    rcases hok e he with hlive | hmarked
    · have hfd := hlive.fd
      exact ⟨fun heq => absurd heq (by omega), fun hmem => absurd hmem hlive.running⟩
    · exact ⟨fun _ => hmarked.terminated, fun _ => hmarked.fd⟩
  · exact absurd h (by simp)

/-- In a pass there is a next step, and it brings the worker closer to the end of the pass. -/
theorem Inv.proceeds (hinv : Inv s) (w : Fin N) (outcome : Outcome)
    (hpass : (s.worker w).pc ≠ .waiting) :
    ∃ l ∈ [.visit w outcome, .mark w, .compact w], ∃ s', step l s = some s' ∧
      (s'.worker w).remaining < (s.worker w).remaining := by
  cases hpc : (s.worker w).pc with
  | waiting => exact absurd hpc hpass
  | visiting i =>
    refine ⟨.visit w outcome, by simp, ?_⟩
    cases hsocket : (s.worker w).sockets[i]? with
    | none => simp [step, visit, hpc, hsocket, Worker.remaining]
    | some e =>
      have hlen := (List.getElem?_eq_some_iff.mp hsocket).1
      by_cases hfd : e.fd < 0
      · simp [step, visit, hpc, hsocket, hfd, Worker.remaining]
        omega
      · cases outcome <;> simp [step, visit, hpc, hsocket, hfd, Worker.remaining] <;> omega
  | marking =>
    -- the shared list still has the entry, so the marking is inside of it
    have hok := hinv.worker w
    simp only [WorkerOk, hpc] at hok
    rcases hok with ⟨-, e, hclosed, -⟩
    exact ⟨.mark w, by simp, by simp [step, mark, hpc, hclosed.entry, Worker.remaining]⟩
  | compacting => exact ⟨.compact w, by simp, by simp [step, compact, hpc, Worker.remaining]⟩

theorem next_lt (hN : 0 < N) (hr : Reachable (system N) s) : s.next < N := by
  have hinit : ∀ s, (system N).Init s → s.next < N := by
    rintro s rfl
    exact hN
  refine hr.invariant hinit fun l s s' hlt hnext => ?_
  -- only `push_back` moves the turn
  have hmod : (s.next + 1) % N < N := Nat.mod_lt _ hN
  cases l <;> simp only [system, step, accept, pushBack, copy, visit, mark, compact] at hnext <;>
    split at hnext <;> grind [State.setWorker]

/-- An entry of a connection that still runs is that of an open descriptor. -/
theorem Inv.live_of_running (hinv : Inv s)
    (he : e ∈ (s.worker w).shared) (hrunning : e.conn ∉ s.terminated) : Live s e := by
  have hok := hinv.worker w
  unfold WorkerOk at hok
  rcases List.mem_iff_getElem?.mp he with ⟨j, hj⟩
  split at hok
  · exact hok e he
  · exact (hok.all he).resolve_right fun h => hrunning h.terminated
  · rename_i i conn _
    rcases hok with ⟨hpass, e', hclosed, -⟩
    by_cases heq : j = i
    · -- the one entry that is neither open nor marked
      rw [heq, hclosed.entry] at hj
      exact absurd ((Option.some.inj hj) ▸ hclosed.terminated) hrunning
    · have hne : some j ≠ some i := fun h => heq (Option.some.inj h)
      rcases Nat.lt_or_ge j i with hlt | hge
      · exact (hpass.done j e hne hj hlt).resolve_right fun h => hrunning h.terminated
      · exact hpass.ahead j e hne hj hge
  · exact (hok e he).resolve_right fun h => hrunning h.terminated

theorem Placed.once (hplaced : Placed s) {c : ℕ} (hqueued : s.Queued c)
    (hrunning : c ∉ s.terminated) :
    ∃! place : Fin N × ℕ, ((s.worker place.1).shared[place.2]?).map Entry.conn = some c := by
  rcases hplaced.complete c hqueued.1 hrunning with ⟨e, he, hconn⟩ | ⟨w, e, he, rfl⟩
  · exact absurd hconn (hqueued.2 e he)
  · rcases List.mem_iff_getElem?.mp he with ⟨i, hi⟩
    refine ⟨(w, i), by simp [hi], ?_⟩
    rintro ⟨w', j⟩ hplace
    rcases Option.map_eq_some_iff.mp hplace with ⟨e', hj, hconn⟩
    simp only at hj
    -- in another list it would be a different connection
    have hw : w' = w := by
      by_contra hne
      exact hplaced.disjoint w' w hne e' (List.mem_of_getElem? hj) e he hconn
    subst hw
    rw [hplaced.index_eq hj hi hconn]

/-- No accepted connection is lost or confused with another, in every interleaving and
however the system reuses descriptors. -/
theorem connections_kept (hr : Reachable (system N) s) : Kept s := by
  have hinv := reachable_inv hr
  refine ⟨fun w s' h => hinv.marks h, fun w s' h => hinv.compacts h,
    fun c hqueued hrunning => hinv.placed.once hqueued hrunning, ?_, ?_, ?_, ?_, hinv.proceeds⟩
  · intro w e he hrunning
    have hlive := hinv.live_of_running he hrunning
    exact ⟨hlive.fd, hlive.owner⟩
  · intro w hpc e he
    have hok := hinv.worker w
    simp only [WorkerOk, hpc] at hok
    exact (hok e he).running
  · intro hN e he
    have hlt := next_lt hN hr
    exact ⟨hlt, by simp [pushBack, he, hlt]⟩
  · intro w hpc hne
    simp [copy, hpc, hne]

theorem reachable_of_steps (w : Fin N) (worker : Worker) (labels : List (Label N))
    (h : (exec step labels [] (init N)).map (fun x => x.2.worker w) = some worker) :
    ∃ s : State N, Reachable (system N) s ∧ s.worker w = worker := by
  rcases Option.map_eq_some_iff.mp h with ⟨⟨history, s⟩, hexec, hworker⟩
  exact ⟨s, ((Run.init rfl).exec (fun l s s' hstep => hstep) hexec).reachable, hworker⟩

/-- The first connection has terminated and is not marked yet when the second one, with
the same descriptor, is appended behind it. After the pass the second one alone is left. -/
theorem connections_kept_reuse :
    (∃ s : State 1, Reachable (system 1) s ∧
      s.worker 0 = ⟨[⟨5, 0⟩, ⟨5, 1⟩], [⟨5, 0⟩], .marking 0 (some 0)⟩ ∧ Kept s) ∧
    ∃ s : State 1, Reachable (system 1) s ∧
      s.worker 0 = ⟨[⟨5, 1⟩], [⟨5, 0⟩], .waiting⟩ ∧ Kept s := by
  constructor
  · rcases reachable_of_steps (0 : Fin 1) ⟨[⟨5, 0⟩, ⟨5, 1⟩], [⟨5, 0⟩], .marking 0 (some 0)⟩
      [.accept 5, .pushBack, .copy 0, .visit 0 .terminated, .accept 5, .pushBack]
      (by decide +kernel) with ⟨s, hr, hs⟩
    exact ⟨s, hr, hs, connections_kept hr⟩
  · rcases reachable_of_steps (0 : Fin 1) ⟨[⟨5, 1⟩], [⟨5, 0⟩], .waiting⟩
      [.accept 5, .pushBack, .copy 0, .visit 0 .terminated, .accept 5, .pushBack, .mark 0,
        .visit 0 .unreadable, .compact 0] (by decide +kernel) with ⟨s, hr, hs⟩
    exact ⟨s, hr, hs, connections_kept hr⟩

end SysProg.Sockets.Connections
