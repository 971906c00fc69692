import Mathlib.Tactic
import SysProg.Concurrency.HashMapSections

/-!
# The lock-based hash map is an atomic multiset

Threads in different buckets never meet: every node belongs to one bucket, and only the thread
that holds the mutex of the bucket accesses it. So every section takes effect at one of its
steps, and the map behaves like a multiset on which the sections are atomic.

* `Belongs` — the nodes of a bucket, with the one that the section in it keeps to itself;
* `Inv` — no node belongs to two buckets, and every node that is allocated belongs to one;
* `atomicBag` — the multiset with atomic sections;
* `mutex_map_linearizable` — the calls and returns of the threads are those of the atomic
  multiset.
-/

namespace SysProg.HashMap

open LinkedCells Lts AtomicObject

variable {Tid : Type} {n b c y sentinel fresh : ℕ} {s s' : State Tid}
  {t u : Tid} {ev : Event} {paths paths' : ℕ → List ℕ} {bag bag' : Multiset ℤ} {nodes' : Cells ℤ}
  {q' : List ℕ} {p p' : Point} {rest : List Section} {results : List Res} {a : Section} {r : Res}
  {vs vs' : List ℤ}

/-! ## The atomic multiset -/

/-- A section on a multiset. -/
def Effect (n : ℕ) : Section → Res → Multiset ℤ → Multiset ℤ → Prop
  | .insert v, .code c, bag, bag' => ∃ insertion, bagStep (.insert v insertion) bag = (c, bag')
  | .remove v, .code c, bag, bag' => bagStep (.remove v) bag = (c, bag')
  | .lookup v, .code c, bag, bag' => bagStep (.lookup v) bag = (c, bag')
  | .print b, .line line, bag, bag' =>
      bag' = bag ∧ (line : Multiset ℤ) = bag.filter fun v => getIndex n v = b
  | _, _, _, _ => False

/-- The multiset with atomic sections. -/
def atomicBag (n : ℕ) : Object (Multiset ℤ) Op Section Res where
  Init bag := bag = 0
  actions := sections n
  Effect := Effect n

theorem filter_cons_index {v : ℤ} (hindex : getIndex n v = b) (bag : Multiset ℤ) (d : ℕ) :
    ((v ::ₘ bag).filter fun v => getIndex n v = d) =
      if d = b then v ::ₘ bag.filter fun v => getIndex n v = d
      else bag.filter fun v => getIndex n v = d := by
  split
  · exact Multiset.filter_cons_of_pos _ (by simp_all)
  · exact Multiset.filter_cons_of_neg _ (by rw [hindex]; omega)

/-- What a section does to its bucket, it does to the multiset. -/
theorem Does.effect (hdoes : Does a r vs vs') (hindex : a.index n = b)
    (hvs : (vs : Multiset ℤ) = bag.filter fun v => getIndex n v = b) :
    ∃ bag', Effect n a r bag bag' ∧ (vs' : Multiset ℤ) = (bag'.filter fun v => getIndex n v = b) ∧
      ∀ d : ℕ, d ≠ b → (bag'.filter fun v => getIndex n v = d) =
        bag.filter fun v => getIndex n v = d := by
  have hmem : ∀ v, getIndex n v = b → (v ∈ vs ↔ v ∈ bag) := by
    intro v hv
    rw [← Multiset.mem_coe, hvs, Multiset.mem_filter]
    exact and_iff_left hv
  cases a with
  | insert v =>
    simp only [Section.index] at hindex
    cases r with
    | code =>
      rcases hdoes with ⟨rfl, rfl⟩ | ⟨rfl, rfl⟩
      · -- inserted into its own bucket, the other buckets do not see it
        refine ⟨v ::ₘ bag, ⟨1, rfl⟩, ?_, fun d hd => ?_⟩
        · rw [filter_cons_index hindex, if_pos rfl, ← hvs]
          rfl
        · rw [filter_cons_index hindex, if_neg hd]
      · -- no memory
        exact ⟨bag, ⟨0, rfl⟩, hvs, fun _ _ => rfl⟩
    | line => exact hdoes.elim
  | remove v =>
    simp only [Section.index] at hindex
    cases r with
    | code =>
      rcases hdoes with ⟨rfl, hvs'⟩ | ⟨rfl, hnot, rfl⟩
      · -- one copy goes
        have hbag : v ∈ bag := by
          rw [← hmem v hindex, ← Multiset.mem_coe, hvs']
          exact Multiset.mem_cons_self _ _
        have hsplit := Multiset.cons_erase hbag
        refine ⟨bag.erase v, by simp [Effect, bagStep, hbag], ?_, fun d hd => ?_⟩
        · rw [hvs, ← hsplit, filter_cons_index hindex, if_pos rfl] at hvs'
          exact ((Multiset.cons_inj_right _).mp hvs').symm
        · conv_rhs => rw [← hsplit, filter_cons_index hindex, if_neg hd]
      · have hbag : v ∉ bag := fun hbag => hnot ((hmem v hindex).mpr hbag)
        exact ⟨bag, by simp [Effect, bagStep, hbag], hvs, fun _ _ => rfl⟩
    | line => exact hdoes.elim
  | lookup v =>
    simp only [Section.index] at hindex
    cases r with
    | code =>
      rcases hdoes with ⟨rfl, hfound⟩
      refine ⟨bag, ?_, hvs, fun _ _ => rfl⟩
      rw [hmem v hindex] at hfound
      rcases hfound with ⟨rfl, hbag⟩ | ⟨rfl, hbag⟩ <;> simp [Effect, bagStep, hbag]
    | line => exact hdoes.elim
  | print d =>
    simp only [Section.index] at hindex
    cases r with
    | code => exact hdoes.elim
    | line =>
      rcases hdoes with ⟨rfl, rfl⟩
      have hd : d = b := by exact_mod_cast hindex
      subst hd
      exact ⟨bag, ⟨rfl, hvs⟩, hvs, fun _ _ => rfl⟩

/-! ## The invariant -/

/-- The section that a thread is in keeps this node of the bucket to itself. -/
def Pc.Owns (b y : ℕ) : Pc → Prop
  | .inside bucket _ _ point => bucket = b ∧ point.owned = some y
  | _ => False

theorem Pc.Owns.inside {pc : Pc} (h : pc.Owns b y) :
    ∃ todo done p, pc = .inside b todo done p ∧ p.owned = some y := by
  cases pc with
  | inside bucket todo done p =>
    rcases h with ⟨rfl, hy⟩
    exact ⟨todo, done, p, rfl, hy⟩
  | _ => exact h.elim

/-- The node is in the list of the bucket, or a section in the bucket keeps it. -/
def Belongs (s : State Tid) (paths : ℕ → List ℕ) (b y : ℕ) : Prop :=
  (∃ sentinel, s.map.buckets[b]? = some sentinel ∧ y ∈ sentinel :: paths b) ∨
    ∃ t, (s.pc t).Owns b y

/-- The sections that are left of a call. -/
def Pc.todo : Pc → List Section
  | .between todo _ | .inside _ todo _ _ => todo
  | _ => []

/-- A thread in a bucket: it holds the mutex, and its section is one for this bucket. -/
structure Inside (n : ℕ) (s : State Tid) (paths : ℕ → List ℕ) (t : Tid) (b : ℕ) (p : Point) :
    Prop where
  locked : s.locks b = some t
  bucket : ∃ sentinel, s.map.buckets[b]? = some sentinel ∧ Holds s.map.nodes sentinel (paths b) p
  index : ∀ a, p.status = .inl a → a.index n = b

structure Inv (n : ℕ) (s : State Tid) (paths : ℕ → List ℕ) (bag : Multiset ℤ) : Prop where
  represents : Represents n s.map paths bag
  inside : ∀ t b todo done p, s.pc t = .inside b todo done p → Inside n s paths t b p
  locks : ∀ b t, s.locks b = some t → ∃ todo done p, s.pc t = .inside b todo done p
  crashed : ∀ t, s.pc t ≠ .crashed
  todo : ∀ t, ∀ a ∈ (s.pc t).todo, ∃ b : ℕ, b < n ∧ a.index n = b
  apart : ∀ b c y, Belongs s paths b y → Belongs s paths c y → b = c
  allocated : ∀ y, s.map.nodes y ≠ none → ∃ b, Belongs s paths b y

/-- What belongs to a bucket is allocated. -/
theorem Inv.isSome (h : Inv n s paths bag) (hy : Belongs s paths b y) : s.map.nodes y ≠ none := by
  rcases hy with ⟨sentinel, hs, hy⟩ | ⟨t, hy⟩
  · have hsome := (h.represents.chain b sentinel hs).isSome hy
    exact Option.isSome_iff_ne_none.mp hsome
  · rcases hy.inside with ⟨todo, done, p, hpc, hy⟩
    rcases (h.inside t b todo done p hpc).bucket with ⟨sentinel, -, hholds⟩
    exact (hholds.owned y hy).2.2

/-- Two threads do not hold the same mutex. -/
theorem Inv.alone {rest' : List Section} {results' : List Res} (h : Inv n s paths bag)
    (hpc : s.pc t = .inside b rest results p) (hpc' : s.pc u = .inside b rest' results' p') :
    t = u := by
  have hlocked := (h.inside t _ _ _ _ hpc).locked
  rw [(h.inside u _ _ _ _ hpc').locked] at hlocked
  exact (Option.some.inj hlocked).symm

/-- What belongs to the bucket that a thread is in is the footprint of its section. -/
theorem Inv.belongs_iff (h : Inv n s paths bag) (hpc : s.pc t = .inside b rest results p)
    (hs : s.map.buckets[b]? = some sentinel) :
    Belongs s paths b y ↔ Footprint sentinel (paths b) p y := by
  constructor
  · rintro (⟨sentinel', hs', hy⟩ | ⟨u, hy⟩)
    · rcases Option.some.inj (hs.symm.trans hs') with rfl
      exact .inl hy
    · rcases hy.inside with ⟨todo', done', p', hu, hy⟩
      rcases h.alone hpc hu with rfl
      rw [hpc] at hu
      rcases Pc.inside.inj hu with ⟨-, -, -, rfl⟩
      exact .inr hy
  · rintro (hy | hy)
    · exact .inl ⟨sentinel, hs, hy⟩
    · exact .inr ⟨t, by rw [hpc]; exact ⟨rfl, hy⟩⟩

/-! ## A step in a bucket -/

/-- The threads after a step of a section that changes the nodes. -/
def State.worked [DecidableEq Tid] (s : State Tid) (t : Tid) (nodes : Cells ℤ) (pc : Pc) :
    State Tid :=
  { s with map := { s.map with nodes } }.put t pc

section Work

variable (h : Inv n s paths bag) (hpc : s.pc t = .inside b rest results p)
  (hs : s.map.buckets[b]? = some sentinel)
include h hpc hs

/-- The other buckets are out of reach. -/
theorem Inv.foreign (hstep : Step s.map.nodes sentinel (paths b) p nodes' q' p') (hc : c ≠ b)
    (hy : Belongs s paths c y) :
    ¬ Footprint sentinel (paths b) p y ∧ ¬ Footprint sentinel q' p' y := by
  have hold : ¬ Footprint sentinel (paths b) p y :=
    fun hfoot => hc (h.apart c b y hy ((h.belongs_iff hpc hs).mpr hfoot))
  refine ⟨hold, fun hnew => ?_⟩
  rcases hstep.grows y hnew with hfoot | ⟨hfree, -⟩
  · exact hold hfoot
  · exact h.isSome hy hfree

variable [DecidableEq Tid]

theorem Inv.worked_belongs :
    Belongs (s.worked t nodes' (.inside b rest results p')) (Function.update paths b q') c y ↔
      if c = b then Footprint sentinel q' p' y else Belongs s paths c y := by
  have howns := Function.exists_update_iff s.pc (a := t) (b := .inside b rest results p')
    fun _ pc => pc.Owns c y
  by_cases hc : c = b
  · subst hc
    have hnone : ¬ ∃ u, u ≠ t ∧ (s.pc u).Owns c y := by
      rintro ⟨u, hu, hy⟩
      rcases hy.inside with ⟨todo, done, p₁, hpcu, -⟩
      exact hu (h.alone hpcu hpc)
    simp only [Belongs, State.worked, State.put, howns, hnone]
    simp [hs, Footprint, Pc.Owns]
  · have hsame : (∃ u, u ≠ t ∧ (s.pc u).Owns c y) ↔ ∃ u, (s.pc u).Owns c y := by
      refine exists_congr fun u => and_iff_right_of_imp ?_
      rintro hy rfl
      rw [hpc] at hy
      exact hc hy.1.symm
    simp only [Belongs, State.worked, State.put, howns, hsame]
    simp [hc, Pc.Owns, Ne.symm hc]

omit [DecidableEq Tid] in
/-- The nodes outside of the footprint are as they were, and there are finitely many in all. -/
theorem Inv.worked_represents (hstep : Step s.map.nodes sentinel (paths b) p nodes' q' p')
    (hvalues : (values nodes' q' : Multiset ℤ) = bag'.filter fun v => getIndex n v = b)
    (hbag : ∀ d : ℕ, d ≠ b → (bag'.filter fun v => getIndex n v = d) =
      bag.filter fun v => getIndex n v = d) :
    Represents n { s.map with nodes := nodes' } (Function.update paths b q') bag' := by
  have hholds : Holds s.map.nodes sentinel (paths b) p := by
    rcases (h.inside t _ _ _ _ hpc).bucket with ⟨sentinel', hs', hholds⟩
    rcases Option.some.inj (hs.symm.trans hs') with rfl
    exact hholds
  have hnull : ∀ nodes q p, Holds nodes sentinel q p → ¬ Footprint sentinel q p 0 := by
    rintro nodes q p hholds (hmem | hmem)
    · exact hholds.chain.ne_null hmem rfl
    · exact (hholds.owned 0 hmem).2.1 rfl
  refine h.represents.replace hs ?_ ?_ ?_ hstep.holds.chain hstep.holds.nodup ?_ hvalues hbag
  · rw [hstep.frame 0 (hnull _ _ _ hholds) (hnull _ _ _ hstep.holds)]
    exact h.represents.null
  · rcases h.represents.finite with ⟨m, hm⟩
    -- beyond all addresses that the section knows
    have hbound : ∃ m', ∀ y, m' ≤ y → ¬ Footprint sentinel q' p' y := by
      rcases (sentinel :: q').toFinset.bddAbove with ⟨m', hm'⟩
      refine ⟨m' + p'.owned.getD 0 + 1, ?_⟩
      rintro y hy (hmem | hmem)
      · have hle := hm' (List.mem_toFinset.mpr hmem)
        omega
      · rw [hmem, Option.getD_some] at hy
        omega
    rcases hbound with ⟨m', hm'⟩
    refine ⟨m + m', fun y hy => ?_⟩
    have hfree := hm y (by omega)
    rw [hstep.frame y ?_ (hm' y (by omega)), hfree]
    intro hfoot
    exact h.isSome ((h.belongs_iff hpc hs).mpr hfoot) hfree
  · intro d u hu hd y hy
    have hforeign := h.foreign hpc hs hstep hd (.inl ⟨u, hu, hy⟩)
    exact hstep.frame y hforeign.1 hforeign.2
  · intro d u y hu hy hy'
    by_contra hd
    exact (h.foreign hpc hs hstep hd (.inl ⟨u, hu, hy⟩)).2 (.inl hy')

/-- The section goes on in its bucket, and the sections of other threads are in other buckets. -/
theorem Inv.worked_inside (hstep : Step s.map.nodes sentinel (paths b) p nodes' q' p') :
    ∀ u c todo done p₁,
      (s.worked t nodes' (.inside b rest results p')).pc u = .inside c todo done p₁ →
      Inside n (s.worked t nodes' (.inside b rest results p')) (Function.update paths b q') u c p₁ := by
  have hin := h.inside t _ _ _ _ hpc
  refine (Function.forall_update_iff s.pc fun u pc => ∀ c todo done p₁,
    pc = .inside c todo done p₁ → Inside n _ _ u c p₁).mpr ⟨?_, ?_⟩
  · intro c todo done p₁ hpcu
    rcases Pc.inside.inj hpcu with ⟨rfl, rfl, rfl, rfl⟩
    refine ⟨hin.locked, ⟨sentinel, hs, by simpa [State.worked] using hstep.holds⟩, ?_⟩
    intro a ha
    rcases hstep.outcome with ⟨hstatus, -⟩ | ⟨a', r, -, hstatus, -⟩
    · exact hin.index a (hstatus ▸ ha)
    · -- a section that has taken effect has no index to check
      simp [hstatus] at ha
  · intro u hu c todo done p₁ hpcu
    have hin' := h.inside u _ _ _ _ hpcu
    have hc : c ≠ b := by
      rintro rfl
      exact hu (h.alone hpcu hpc)
    rcases hin'.bucket with ⟨sentinel', hs', hholds⟩
    refine ⟨hin'.locked, ⟨sentinel', hs', ?_⟩, hin'.index⟩
    rw [Function.update_of_ne hc]
    -- the step does not touch what the section of `u` sees
    refine hholds.congr fun y hy => ?_
    have hforeign := h.foreign hpc hs hstep hc ((h.belongs_iff hpcu hs').mpr hy)
    exact hstep.frame y hforeign.1 hforeign.2

theorem Inv.worked_apart (hstep : Step s.map.nodes sentinel (paths b) p nodes' q' p') {d : ℕ}
    (hc : Belongs (s.worked t nodes' (.inside b rest results p')) (Function.update paths b q') c y)
    (hd : Belongs (s.worked t nodes' (.inside b rest results p')) (Function.update paths b q') d y) :
    c = d := by
  rw [h.worked_belongs hpc hs] at hc hd
  split_ifs at hc hd with hcb hdb hdb
  · rw [hcb, hdb]
  · exact absurd hc (h.foreign hpc hs hstep hdb hd).2
  · exact absurd hd (h.foreign hpc hs hstep hcb hc).2
  · exact h.apart c d y hc hd

theorem Inv.worked_allocated (hstep : Step s.map.nodes sentinel (paths b) p nodes' q' p')
    (hy : nodes' y ≠ none) : ∃ c,
      Belongs (s.worked t nodes' (.inside b rest results p')) (Function.update paths b q') c y := by
  by_cases hnew : Footprint sentinel q' p' y
  · exact ⟨b, by rwa [h.worked_belongs hpc hs, if_pos rfl]⟩
  · by_cases hold : Footprint sentinel (paths b) p y
    · exact absurd (hstep.frees y hold hnew) hy
    · -- the node was allocated before, outside of the bucket
      rw [hstep.frame y hold hnew] at hy
      rcases h.allocated y hy with ⟨c, hc⟩
      have hcb : c ≠ b := by
        rintro rfl
        exact hold ((h.belongs_iff hpc hs).mp hc)
      exact ⟨c, by rwa [h.worked_belongs hpc hs, if_neg hcb]⟩

theorem Inv.worked (hstep : Step s.map.nodes sentinel (paths b) p nodes' q' p')
    (hvalues : (values nodes' q' : Multiset ℤ) = bag'.filter fun v => getIndex n v = b)
    (hbag : ∀ d : ℕ, d ≠ b → (bag'.filter fun v => getIndex n v = d) =
      bag.filter fun v => getIndex n v = d) :
    Inv n (s.worked t nodes' (.inside b rest results p')) (Function.update paths b q') bag' where
  represents := h.worked_represents hpc hs hstep hvalues hbag
  inside := h.worked_inside hpc hs hstep
  locks c := by
    -- the thread is in the bucket it was in
    refine (Function.forall_update_iff s.pc fun u pc => s.locks c = some u →
      ∃ todo done p₁, pc = .inside c todo done p₁).mpr ⟨fun hlock => ?_, fun u _ => h.locks c u⟩
    rcases h.locks c t hlock with ⟨todo, done, p₁, hpcu⟩
    rw [hpc] at hpcu
    exact ⟨_, _, _, by rw [(Pc.inside.inj hpcu).1]⟩
  crashed := (Function.forall_update_iff s.pc fun _ pc => pc ≠ .crashed).mpr
    ⟨by simp, fun u _ => h.crashed u⟩
  todo := by
    refine (Function.forall_update_iff s.pc fun _ pc => ∀ a ∈ pc.todo, ∃ b : ℕ, b < n ∧
      a.index n = b).mpr ⟨fun a ha => h.todo t a ?_, fun u _ => h.todo u⟩
    rwa [hpc]
  apart _ _ _ := h.worked_apart hpc hs hstep
  allocated _ := h.worked_allocated hpc hs hstep

end Work

/-! ## Steps outside of the sections -/

section Steps

variable [DecidableEq Tid]

/-- A thread that keeps no node goes on, and locks or unlocks a mutex or neither. -/
theorem Inv.put {pc : Pc} (h : Inv n s paths bag) (locks : ℕ → Option Tid)
    (hold : ∀ c y, ¬ (s.pc t).Owns c y) (hnew : ∀ c y, ¬ pc.Owns c y) (hcrashed : pc ≠ .crashed)
    (htodo : ∀ a ∈ pc.todo, ∃ b : ℕ, b < n ∧ a.index n = b)
    (hinside : ∀ b todo done p, pc = .inside b todo done p → locks b = some t ∧
      (∃ sentinel, s.map.buckets[b]? = some sentinel ∧ Holds s.map.nodes sentinel (paths b) p) ∧
      ∀ a, p.status = .inl a → a.index n = b)
    (hothers : ∀ b u, u ≠ t → (locks b = some u ↔ s.locks b = some u))
    (hlocks : ∀ b, locks b = some t → ∃ todo done p, pc = .inside b todo done p) :
    Inv n ({ s with locks }.put t pc) paths bag := by
  -- no node changes hands
  have hbelongs : ∀ c y, Belongs ({ s with locks }.put t pc) paths c y ↔ Belongs s paths c y := by
    intro c y
    refine or_congr_right ((Function.exists_update_iff s.pc fun _ pc => pc.Owns c y).trans ?_)
    rw [or_iff_right (hnew c y)]
    refine exists_congr fun u => and_iff_right_of_imp ?_
    rintro hy rfl
    exact hold c y hy
  refine ⟨h.represents, ?inside, ?locks, ?crashed, ?todo, ?apart, ?allocated⟩
  case inside =>
    refine (Function.forall_update_iff s.pc fun u pc => ∀ b todo done p,
      pc = .inside b todo done p → Inside n _ paths u b p).mpr ⟨?_, ?_⟩
    · intro b todo done p hpc
      rcases hinside b todo done p hpc with ⟨hlock, hbucket, hindex⟩
      exact ⟨hlock, hbucket, hindex⟩
    · intro u hu b todo done p hpcu
      have hin := h.inside u b todo done p hpcu
      exact ⟨(hothers b u hu).mpr hin.locked, hin.bucket, hin.index⟩
  case locks =>
    intro b
    exact (Function.forall_update_iff s.pc fun u pc => locks b = some u →
      ∃ todo done p, pc = .inside b todo done p).mpr
      ⟨hlocks b, fun u hu hlock => h.locks b u ((hothers b u hu).mp hlock)⟩
  case crashed =>
    exact (Function.forall_update_iff s.pc fun _ pc => pc ≠ .crashed).mpr
      ⟨hcrashed, fun u _ => h.crashed u⟩
  case todo =>
    exact (Function.forall_update_iff s.pc fun _ pc => ∀ a ∈ pc.todo, ∃ b : ℕ, b < n ∧
      a.index n = b).mpr ⟨htodo, fun u _ => h.todo u⟩
  case apart =>
    intro c d y hc hd
    exact h.apart c d y ((hbelongs c y).mp hc) ((hbelongs d y).mp hd)
  case allocated =>
    intro y hy
    rcases h.allocated y hy with ⟨c, hc⟩
    exact ⟨c, (hbelongs c y).mpr hc⟩

theorem sections_index (hn : 1 ≤ n) (hmax : n < 2 ^ 31) {op : Op} (ha : a ∈ sections n op) :
    ∃ b : ℕ, b < n ∧ a.index n = b := by
  cases op with
  | print =>
    rcases List.mem_map.mp ha with ⟨b, hb, rfl⟩
    exact ⟨b, List.mem_range.mp hb, rfl⟩
  | insert v | remove v | lookup v =>
    rcases List.mem_singleton.mp ha with rfl
    exact getIndex_eq hn hmax v

omit [DecidableEq Tid] in
/-- A thread that is in no section holds no mutex. -/
theorem Inv.not_locked (h : Inv n s paths bag) (hpc : ∀ todo done p, s.pc t ≠ .inside b todo done p) :
    s.locks b ≠ some t := by
  intro hlock
  rcases h.locks b t hlock with ⟨todo, done, p, hinside⟩
  exact hpc todo done p hinside

theorem Inv.invoke (h : Inv n s paths bag) (hn : 1 ≤ n) (hmax : n < 2 ^ 31) (op : Op)
    (hpc : s.pc t = .idle) :
    Inv n (s.put t (.between (sections s.map.length op) [])) paths bag := by
  refine h.put s.locks ?_ (fun _ _ => id) (by simp) ?_ (by simp) (fun _ _ _ => Iff.rfl) ?_
  · rw [hpc]
    exact fun _ _ => id
  · rw [h.represents.length]
    exact fun a ha => sections_index hn hmax ha
  · exact fun b hlock => absurd hlock (h.not_locked (by simp [hpc]))

theorem Inv.ret (h : Inv n s paths bag) (hpc : s.pc t = .between [] results) :
    Inv n (s.put t .idle) paths bag := by
  refine h.put s.locks ?_ (fun _ _ => id) (by simp) (by simp [Pc.todo]) (by simp)
    (fun _ _ _ => Iff.rfl) ?_
  · rw [hpc]
    exact fun _ _ => id
  · exact fun b hlock => absurd hlock (h.not_locked (by simp [hpc]))

omit [DecidableEq Tid] in
/-- The bucket of a section that is left to do. -/
theorem Inv.bucket (h : Inv n s paths bag) (hpc : s.pc t = .between (a :: rest) results) :
    ∃ b sentinel : ℕ, a.index s.map.length = b ∧ s.map.buckets[b]? = some sentinel ∧
      s.map.bucket (a.index s.map.length) = some sentinel := by
  rcases h.todo t a (by rw [hpc]; exact List.mem_cons_self) with ⟨b, hb, hindex⟩
  have hlt : b < s.map.buckets.length := by
    rw [h.represents.buckets]
    exact hb
  have hs := List.getElem?_eq_getElem hlt
  rw [h.represents.length]
  refine ⟨b, _, hindex, hs, ?_⟩
  rw [hindex, Map.bucket, if_pos (Int.natCast_nonneg b), Int.toNat_natCast, hs]

theorem Inv.lock (h : Inv n s paths bag) (hpc : s.pc t = .between (a :: rest) results)
    (hindex : a.index s.map.length = b) (hs : s.map.buckets[b]? = some sentinel)
    (hfree : s.locks b = none) :
    Inv n ({ s with locks := Function.update s.locks b (some t) }.put t
      (.inside b rest results (a.start sentinel))) paths bag := by
  refine h.put _ ?_ ?_ (by simp) ?_ ?_ ?_ ?_
  · rw [hpc]
    exact fun _ _ => id
  · rintro c y ⟨-, howned⟩
    cases a <;> cases howned
  · intro a' ha'
    refine h.todo t a' ?_
    rw [hpc]
    exact List.mem_cons_of_mem _ ha'
  · intro c todo done p hinside
    rcases Pc.inside.inj hinside with ⟨rfl, rfl, rfl, rfl⟩
    refine ⟨Function.update_self _ _ _, ⟨sentinel, hs, ?_⟩, ?_⟩
    · exact Section.start_holds (h.represents.chain b sentinel hs) (h.represents.nodup b sentinel hs) a
    · intro a' ha'
      rw [Section.start_status] at ha'
      rcases Sum.inl.inj ha' with rfl
      rw [← h.represents.length]
      exact hindex
  · -- the mutex was free, so no other thread loses it
    intro c u hu
    by_cases hc : c = b <;> simp [hc, hfree, Ne.symm hu]
  · intro c hlock
    by_cases hc : c = b
    · exact ⟨_, _, _, by rw [hc]⟩
    · rw [Function.update_of_ne hc] at hlock
      exact absurd hlock (h.not_locked (by simp [hpc]))

theorem Inv.unlock (h : Inv n s paths bag) (hpc : s.pc t = .inside b rest results (.leave r)) :
    Inv n ({ s with locks := Function.update s.locks b none }.put t
      (.between rest (results ++ [r]))) paths bag := by
  refine h.put _ ?_ (fun _ _ => id) (by simp) ?_ (by simp) ?_ ?_
  · rw [hpc]
    rintro c y ⟨-, howned⟩
    cases howned
  · intro a ha
    refine h.todo t a ?_
    rw [hpc]
    exact ha
  · intro c u hu
    by_cases hc : c = b <;> simp [hc, (h.inside t _ _ _ _ hpc).locked, Ne.symm hu]
  · intro c hlock
    have hc : c ≠ b := by
      rintro rfl
      simp at hlock
    rw [Function.update_of_ne hc] at hlock
    exact absurd hlock (h.not_locked (by simp [hpc, Ne.symm hc]))

/-! ## The simulation -/

/-- The call that a thread is in, as a call of the atomic multiset. -/
def Pc.call : Pc → Option (List Section × List Res)
  | .idle | .crashed => none
  | .between todo done => some (todo, done)
  | .inside _ todo done point =>
      match point.status with
      | .inl a => some (a :: todo, done)
      | .inr r => some (todo, done ++ [r])

/-- Calls and returns are seen from outside. -/
def seen : Tid × Event → Option (Tid × AtomicObject.Event Op Res)
  | (t, .invoke op) => some (t, .invoke op)
  | (_, .step _) => none
  | (t, .ret results) => some (t, .ret results)

/-- A state of the threads and the atomic multiset. -/
def Simulates (n : ℕ) (s : State Tid) (a : AtomicObject.State (Multiset ℤ) Section Res Tid) : Prop :=
  (∃ paths, Inv n s paths a.value) ∧ ∀ t, a.call t = (s.pc t).call

variable {o : AtomicObject.State (Multiset ℤ) Section Res Tid}

/-- The thread has gone on, and its call is the one that the atomic multiset is at. -/
theorem Simulates.put {pc : Pc} {call : Option (List Section × List Res)}
    (h : ∀ u, o.call u = (s.pc u).call) (hs' : s'.pc = Function.update s.pc t pc)
    (hcall : pc.call = call) (u : Tid) : Function.update o.call t call u = (s'.pc u).call := by
  rw [hs']
  by_cases hu : u = t <;> simp [hu, hcall, h]

omit [DecidableEq Tid] in
theorem Inv.section_step (h : Inv n s paths bag) (hpc : s.pc t = .inside b rest results p)
    (hleave : ∀ result, p ≠ .leave result) (hallowed : p.allowed s.map.nodes fresh = true) :
    ∃ sentinel nodes' p' q', s.map.buckets[b]? = some sentinel ∧
      advance s.map.nodes fresh p = some (nodes', p') ∧
      Step s.map.nodes sentinel (paths b) p nodes' q' p' := by
  rcases (h.inside t _ _ _ _ hpc).bucket with ⟨sentinel, hs, hholds⟩
  rcases advance_step hholds hleave hallowed with ⟨nodes', p', q', hadvance, hstep⟩
  exact ⟨sentinel, nodes', p', q', hs, hadvance, hstep⟩

/-- A step of a section is no error; it changes nothing, or it is the one at which the section
takes effect. -/
theorem Inv.advance (h : Inv n s paths bag) (hpc : s.pc t = .inside b rest results p)
    (hleave : ∀ result, p ≠ .leave result) (hallowed : p.allowed s.map.nodes fresh = true) :
    ∃ nodes' p' paths' bag', advance s.map.nodes fresh p = some (nodes', p') ∧
      Inv n (s.worked t nodes' (.inside b rest results p')) paths' bag' ∧
      ((p'.status = p.status ∧ bag' = bag) ∨
        ∃ a r, p.status = .inl a ∧ p'.status = .inr r ∧ Effect n a r bag bag') := by
  have hin := h.inside t _ _ _ _ hpc
  rcases h.section_step hpc hleave hallowed with ⟨sentinel, nodes', p', q', hs, hadvance, hstep⟩
  have hvs := h.represents.values b sentinel hs
  rcases hstep.outcome with ⟨hstatus, hsame⟩ | ⟨a, r, hbefore, hafter, hdoes⟩
  · exact ⟨nodes', p', _, bag, hadvance,
      h.worked hpc hs hstep (by rw [hsame, hvs]) (fun _ _ => rfl), .inl ⟨hstatus, rfl⟩⟩
  · rcases hdoes.effect (hin.index a hbefore) hvs with ⟨bag', heffect, hvalues, hbag⟩
    exact ⟨nodes', p', _, bag', hadvance, h.worked hpc hs hstep hvalues hbag,
      .inr ⟨a, r, hbefore, hafter, heffect⟩⟩

/-- Every step of a thread is a step of the atomic multiset with the same visible event, or
changes nothing there and is not visible. -/
theorem Simulates.step (hn : 1 ≤ n) (hmax : n < 2 ^ 31) {l : Tid × Event} (h : Simulates n s o)
    (hact : act l s = some s') : (Simulates n s' o ∧ seen l = none) ∨
      ∃ k o', ((atomicBag n).system Tid).Next k o o' ∧ Simulates n s' o' ∧ visible k = seen l := by
  rcases l with ⟨t, ev⟩
  rcases h with ⟨⟨paths, hinv⟩, hcalls⟩
  have hsame : ∀ {s' : State Tid} {pc : Pc}, s'.pc = Function.update s.pc t pc →
      pc.call = (s.pc t).call → ∀ u, o.call u = (s'.pc u).call := by
    intro s' pc hs' hcall u
    have hput := Simulates.put hcalls hs' hcall u
    rw [← hcalls t, Function.update_eq_self] at hput
    exact hput
  cases acted_of_act hact with
  | invoke op hpc =>
    refine .inr ⟨(t, .invoke op), _, .invoke op ?_, ⟨⟨paths, hinv.invoke hn hmax op hpc⟩, ?_⟩, rfl⟩
    · rw [hcalls t, hpc]
      rfl
    · refine Simulates.put hcalls rfl ?_
      rw [hinv.represents.length]
      rfl
  | outside fresh a todo done hpc hnone =>
    -- every section has a bucket
    rcases hinv.bucket hpc with ⟨b, sentinel, -, -, hbucket⟩
    rw [hnone] at hbucket
    cases hbucket
  | lock fresh sentinel a todo done hpc hsome hfree =>
    rcases hinv.bucket hpc with ⟨b, sentinel', hindex, hs, hbucket⟩
    rw [hsome] at hbucket
    rcases Option.some.inj hbucket with rfl
    rw [hindex, Int.toNat_natCast] at hfree ⊢
    refine .inl ⟨⟨⟨paths, hinv.lock hpc hindex hs hfree⟩, hsame rfl ?_⟩, rfl⟩
    rw [hpc]
    simp only [Pc.call, Section.start_status]
  | unlock fresh b todo done r hpc =>
    refine .inl ⟨⟨⟨paths, hinv.unlock hpc⟩, hsame rfl ?_⟩, rfl⟩
    rw [hpc]
    rfl
  | work fresh b todo done p p' nodes' hpc hallowed hadvance =>
    have hleave : ∀ result, p ≠ .leave result := by
      rintro result rfl
      cases hadvance
    rcases hinv.advance hpc hleave hallowed with
      ⟨nodes₁, p₁, paths', bag', hadvance', hinv', hstatus⟩
    rw [hadvance] at hadvance'
    rcases Option.some.inj hadvance' with ⟨⟩
    rcases hstatus with ⟨hstatus, rfl⟩ | ⟨a, r, hbefore, hafter, heffect⟩
    · refine .inl ⟨⟨⟨paths', hinv'⟩, hsame rfl ?_⟩, rfl⟩
      rw [hpc]
      simp only [Pc.call, hstatus]
    · -- this is where the section takes effect
      refine .inr ⟨(t, .act), ⟨bag', Function.update o.call t (some (todo, done ++ [r]))⟩, ?_,
        ⟨⟨paths', hinv'⟩, Simulates.put hcalls rfl ?_⟩, rfl⟩
      · refine .act a todo done r bag' ?_ heffect
        rw [hcalls t, hpc]
        simp only [Pc.call, hbefore]
      · simp only [Pc.call, hafter]
  | crash fresh b todo done p hpc hleave hallowed hcrash =>
    -- a section only accesses nodes of its own bucket, which are allocated
    rcases hinv.advance hpc hleave hallowed with ⟨nodes₁, p₁, paths', bag', hadvance, -⟩
    rw [hcrash] at hadvance
    cases hadvance
  | ret results hpc =>
    refine .inr ⟨(t, .ret results), _, .ret results ?_, ⟨⟨paths, hinv.ret hpc⟩, ?_⟩, rfl⟩
    · rw [hcalls t, hpc]
      rfl
    · exact Simulates.put hcalls rfl rfl

omit [DecidableEq Tid] in
theorem advance_refused {nodes : Cells ℤ} {v : ℤ}
    (hadvance : HashMap.advance nodes fresh p = some (nodes', p'))
    (hbefore : p.status = .inl (.insert v)) (hafter : p'.status = .inr (.code 1)) :
    fresh = 0 ∧ ∃ sentinel, p = .insertNew v sentinel := by
  cases p <;> cases hbefore <;> simp only [HashMap.advance] at hadvance
  · split at hadvance
    · exact ⟨‹_›, _, rfl⟩
    · cases hadvance
      cases hafter
  all_goals
    rcases Option.bind_eq_some_iff.mp hadvance with ⟨c, -, hnext⟩
    cases hnext
    cases hafter

/-- The one step at which an insertion is refused. -/
theorem refused_of_call {v : ℤ} {todo : List Section} {done : List Res}
    (hacted : Acted s u ev s') (hbefore : (s.pc t).call = some (.insert v :: todo, done))
    (hafter : (s'.pc t).call = some (todo, done ++ [.code 1])) :
    u = t ∧ ev = .step 0 ∧ ∃ b sentinel, s.pc t = .inside b todo done (.insertNew v sentinel) := by
  have hne : (s'.pc t).call ≠ (s.pc t).call := by simp [hbefore, hafter]
  by_cases hu : t = u
  · subst hu
    cases hacted with
    | invoke op hpc => simp [hpc, Pc.call] at hbefore
    | outside => simp [Pc.call] at hafter
    | lock fresh sentinel a todo' done' hpc hsome hfree =>
      exact absurd (by simp [Pc.call, Section.start_status, hpc]) hne
    | unlock fresh b todo' done' r hpc =>
      exact absurd (by simp [Pc.call, Point.status, hpc]) hne
    | crash => simp [Pc.call] at hafter
    | ret results hpc => simp [hpc, Pc.call] at hbefore
    | work fresh b todo' done' p p' nodes' hpc hallowed hadvance =>
      simp only [hpc, State.put_pc, Function.update_self, Pc.call] at hbefore hafter
      -- the section was before its effect and is behind it
      cases hp : p.status with
      | inr r => cases hp' : p'.status <;> simp_all
      | inl =>
        rw [hp] at hbefore
        cases hbefore
        cases hp' : p'.status with
        | inl => simp [hp'] at hafter
        | inr r =>
          have hr : r = .code 1 := by simpa [hp'] using hafter
          rcases advance_refused hadvance hp (hr ▸ hp') with ⟨rfl, sentinel, rfl⟩
          exact ⟨rfl, rfl, b, sentinel, hpc⟩
  · exact absurd (by cases hacted <;> simp [hu]) hne

omit [DecidableEq Tid] in
theorem Inv.init : Inv n (⟨allocHashmap n, fun _ => none, fun _ => .idle⟩ : State Tid)
    (fun _ => []) 0 := by
  refine ⟨alloc_represents n, by simp, by simp, by simp, by simp [Pc.todo], ?_, ?_⟩
  · rintro b c y (⟨sentinel, hs, hy⟩ | ⟨t, hy⟩) (⟨sentinel', hs', hy'⟩ | ⟨t', hy'⟩)
    · exact (alloc_represents n).apart b c sentinel sentinel' y hs hs' hy hy'
    · exact hy'.elim
    · exact hy.elim
    · exact hy.elim
  · -- the sentinel of bucket `y - 1`
    intro y hy
    have hrange : 1 ≤ y ∧ y ≤ n := by
      by_contra hnot
      exact hy (if_neg hnot)
    refine ⟨y - 1, .inl ⟨y, ?_, List.mem_cons_self⟩⟩
    simp only [allocHashmap, List.getElem?_map, List.getElem?_range (show y - 1 < n by omega),
      Option.map_some]
    congr 1
    omega

theorem Simulates.init (hinit : (threads n Tid).Init s) :
    ∃ o, ((atomicBag n).system Tid).Init o ∧ Simulates n s o :=
  ⟨⟨0, fun _ => none⟩, ⟨rfl, fun _ => rfl⟩, ⟨fun _ => [], hinit ▸ Inv.init⟩, fun t => by
    rw [hinit]
    rfl⟩

end Steps

/-- `new` returns null to the insertion of `v` that thread `t` is in. -/
def NewFails [DecidableEq Tid] (e : Behavior (threads n Tid)) (t : Tid) (v : ℤ) (m : ℕ) : Prop :=
  e.label m = some (t, .step 0) ∧
    ∃ b todo done sentinel, (e.state m).pc t = .inside b todo done (.insertNew v sentinel)

/-- The threads call and return like threads on a multiset with atomic sections, which at any
time is what the lists hold. An insertion is refused only if its `new` returns null. So
`insert_item`, `remove_item` and `lookup_item` take effect at one instant of the call, and
`print_hashmap` prints every bucket as it is at one instant, one bucket after the other. -/
theorem mutex_map_linearizable [DecidableEq Tid] (n : ℕ) (hn : 1 ≤ n) (hmax : n < 2 ^ 31)
    (e : Behavior (threads n Tid)) :
    ∃ f : Behavior ((atomicBag n).system Tid),
      (∀ k, ∃ paths, Represents n (e.state k).map paths (f.state k).value) ∧
      (∀ k, (f.label k).bind visible = (e.label k).bind seen) ∧
      ∀ t op results i j, AtomicObject.Call (fun k => (e.label k).bind seen) t op results i j →
        Effects f t (sections n op) results (i + 1) j ∧
        ∀ v, op = .insert v → results = [.code 1] → ∃ m, i < m ∧ m < j ∧ NewFails e t v m := by
  rcases e.exists_simulation (T := (atomicBag n).system Tid) (fun s hs => Simulates.init hs)
    (fun l s s' o h hact => Simulates.step hn hmax h hact) with ⟨f, hsim, hseen⟩
  refine ⟨f, ?_, hseen, ?_⟩
  · intro k
    rcases (hsim k).1 with ⟨paths, hinv⟩
    exact ⟨paths, hinv.represents⟩
  · intro t op results i j hcall
    have hcall : AtomicObject.Call (fun k => (f.label k).bind visible) t op results i j := by
      simp only [hseen]
      exact hcall
    refine ⟨hcall.effects, ?_⟩
    -- an insertion that returns 1: the section in which `new` fails
    rintro v rfl rfl
    rcases hcall.effects with ⟨m, him, hmj, ⟨-, ⟨todo, done, hbefore, hafter⟩, -⟩, -⟩
    refine ⟨m, him, hmj, ?_⟩
    rw [(hsim m).2] at hbefore
    rw [(hsim (m + 1)).2] at hafter
    cases hl : e.label m with
    | none =>
      rw [e.stutter m hl, hbefore] at hafter
      simp at hafter
    | some l =>
      rcases l with ⟨u, ev⟩
      rcases refused_of_call (acted_of_act (e.next m _ hl)) hbefore hafter with
        ⟨rfl, rfl, b, sentinel, hpc⟩
      exact ⟨hl, b, todo, done, sentinel, hpc⟩

theorem threads_init (n : ℕ) (Tid : Type) [DecidableEq Tid] :
    (threads n Tid).Init ⟨allocHashmap n, fun _ => none, fun _ => .idle⟩ :=
  rfl

/-- One thread inserts 5 while another one prints, and has to wait for the second bucket. -/
def insertPrint : Behavior (threads 2 Bool) :=
  .ofSchedule act (fun _ _ _ h => h) _ (threads_init 2 Bool)
    [(true, .invoke (.insert 5)), (false, .invoke .print), (true, .step 0), (false, .step 0),
      (true, .step 7), (false, .step 0), (true, .step 0), (false, .step 0), (false, .step 0),
      (true, .step 0), (true, .step 0), (true, .step 0), (true, .step 0), (true, .ret [.code 0]),
      (false, .step 0), (false, .step 0), (false, .step 0), (false, .step 0), (false, .step 0),
      (false, .ret [.line [], .line [5]])]

theorem mutex_map_linearizable_insertPrint :
    insertPrint.label 8 = none ∧ ∃ f : Behavior ((atomicBag 2).system Bool),
      Effects f false [.print 0, .print 1] [.line [], .line [5]] 2 19 := by
  have hquiet : ∀ m < 19, 1 < m → ((insertPrint.label m).bind seen).map Prod.fst ≠ some false := by
    decide +kernel
  have hcall : AtomicObject.Call (fun k => (insertPrint.label k).bind seen) false .print
      [.line [], .line [5]] 1 19 := by
    refine ⟨by decide +kernel, by decide, by decide +kernel, fun m him hmj results hret => ?_⟩
    exact hquiet m hmj him (by rw [hret]; rfl)
  rcases mutex_map_linearizable 2 (by decide) (by decide) insertPrint with ⟨f, -, -, heffects⟩
  exact ⟨by decide +kernel, f, (heffects _ _ _ _ _ hcall).1⟩

end SysProg.HashMap
