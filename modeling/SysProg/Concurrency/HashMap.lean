import Mathlib.Algebra.BigOperators.Group.Finset.Basic
import Mathlib.Data.Multiset.Filter
import Mathlib.Tactic
import SysProg.Lib.LinkedCells
import SysProg.Lib.Loop
import SysProg.Lib.Lts

/-!
# The lock-based hash map of `task4-concurrency/src/hashmap.cpp`

Every bucket is a list of nodes behind a sentinel, and every call holds the mutex of its
bucket from before its first access of the list to its end. Calls are therefore steps. A
`long` is an integer; the conversions of the index computation are explicit.

* `insertItem`, `removeItem`, `lookupItem`, `printHashmap` — the functions of the source;
  `new` returns any address that is not allocated, or null;
* `bagStep` — what the map is for: a multiset of values;
* `map_step` — the map refines the multiset;
* `map_is_multiset` — the stored values in every state of every run, and what each call does
  to them and returns.
-/

namespace SysProg.HashMap

open LinkedCells Lts

/-! ## The model -/

/-- `struct Map`. A `List` is given by the address of its sentinel. -/
structure Map where
  buckets : List ℕ
  length : ℕ
  nodes : Cells ℤ

/-- `alloc_hashmap` with memory for everything: the sentinel of bucket `i` gets the address
`i + 1`. -/
def allocHashmap (nBuckets : ℕ) : Map where
  buckets := (List.range nBuckets).map (· + 1)
  length := nBuckets
  nodes x := if 1 ≤ x ∧ x ≤ nBuckets then some ⟨0, 0⟩ else none

/-- `getIndex`: the value is converted to `size_t`, and the index to `int`. -/
def getIndex (length : ℕ) (value : ℤ) : ℤ :=
  let index := (value % 2 ^ 64).toNat % length
  let index := if index < 0 then (index + length) % 2 ^ 64 else index
  Int.bmod index (2 ^ 32)

/-- `map->buckets[index]`. -/
def Map.bucket (map : Map) (index : ℤ) : Option ℕ :=
  if 0 ≤ index then map.buckets[index.toNat]? else none

/-- `insert_item`. The new node is at `insertion`, which is null if there is no memory. -/
def insertItem (map : Map) (value : ℤ) (insertion : ℕ) : Option (ℕ × Map) := do
  let sentinel ← map.bucket (getIndex map.length value)
  if insertion = 0 then return (1, map)
  let node ← map.nodes sentinel
  return (0, { map with nodes := linkAfter map.nodes sentinel insertion value node.next })

/-- One round of the loop of `remove_item`. -/
def removeStep (map : Map) (value : ℤ) (node : ℕ) : ℕ ⊕ Option (ℕ × Map) :=
  match map.nodes node with
  | none => .inr none
  | some n =>
      if n.next = 0 then .inr (some (1, map))
      else
        match map.nodes n.next with
        | none => .inr none
        | some deletion =>
            if deletion.value = value then
              .inr (some (0,
                { map with nodes := unlinkAfter map.nodes node n.next deletion.next }))
            else .inl n.next

/-- `remove_item`, with at most `rounds` rounds of its loop. -/
def removeItem (rounds : ℕ) (map : Map) (value : ℤ) : Option (ℕ × Map) := do
  let sentinel ← map.bucket (getIndex map.length value)
  (Loop.run (removeStep map value) rounds sentinel).join

/-- One round of the loop of `lookup_item`. -/
def lookupStep (map : Map) (value : ℤ) (node : ℕ) : ℕ ⊕ Option ℕ :=
  if node = 0 then .inr (some 1)
  else
    match map.nodes node with
    | none => .inr none
    | some n => if n.value = value then .inr (some 0) else .inl n.next

/-- `lookup_item`, with at most `rounds` rounds of its loop. -/
def lookupItem (rounds : ℕ) (map : Map) (value : ℤ) : Option ℕ := do
  let sentinel ← map.bucket (getIndex map.length value)
  let node ← map.nodes sentinel
  (Loop.run (lookupStep map value) rounds node.next).join

/-- One round of the loop of `print_hashmap` over the nodes of a bucket, with the values
printed so far. -/
def printStep (map : Map) (s : ℕ × List ℤ) : (ℕ × List ℤ) ⊕ Option (List ℤ) :=
  let (node, printed) := s
  if node = 0 then .inr (some printed)
  else
    match map.nodes node with
    | none => .inr none
    | some n => .inl (n.next, printed ++ [n.value])

/-- `print_hashmap`: the values it prints for each bucket. -/
def printHashmap (rounds : ℕ) (map : Map) : Option (List (List ℤ)) :=
  map.buckets.mapM fun sentinel => do
    let node ← map.nodes sentinel
    (Loop.run (printStep map) rounds (node.next, [])).join

/-- A call; an insertion with the address that `new` returns. -/
inductive Call where
  | insert (value : ℤ) (insertion : ℕ)
  | remove (value : ℤ)
  | lookup (value : ℤ)
deriving DecidableEq, Repr

def Call.value : Call → ℤ
  | .insert value _ | .remove value | .lookup value => value

/-- `new` returns null or an address that is not allocated. -/
def Call.Allowed (map : Map) : Call → Prop
  | .insert _ insertion => map.nodes insertion = none
  | .remove _ | .lookup _ => True

/-- One call: its result code and the map after it. -/
def mapStep (rounds : ℕ) (call : Call) (map : Map) : Option (ℕ × Map) :=
  match call with
  | .insert value insertion => insertItem map value insertion
  | .remove value => removeItem rounds map value
  | .lookup value => (lookupItem rounds map value).map fun result => (result, map)

/-- The calls of all threads in the order in which they hold the mutexes. -/
def mapSystem (nBuckets : ℕ) : System Map (Call × ℕ) where
  Init map := map = allocHashmap nBuckets
  Next l map map' := l.1.Allowed map ∧ ∃ rounds, mapStep rounds l.1 map = some (l.2, map')

/-! ## The multiset -/

/-- A call on a multiset of values. -/
def bagStep (call : Call) (bag : Multiset ℤ) : ℕ × Multiset ℤ :=
  match call with
  | .insert value insertion => if insertion = 0 then (1, bag) else (0, value ::ₘ bag)
  | .remove value => if value ∈ bag then (0, bag.erase value) else (1, bag)
  | .lookup value => (if value ∈ bag then 0 else 1, bag)

/-- The nodes of the buckets are at the addresses `paths`, and their values make up the
multiset. -/
structure Represents (n : ℕ) (map : Map) (paths : ℕ → List ℕ) (bag : Multiset ℤ) : Prop where
  length : map.length = n
  buckets : map.buckets.length = n
  null : map.nodes 0 = none
  finite : ∃ m, ∀ x, m ≤ x → map.nodes x = none
  chain : ∀ (b s : ℕ), map.buckets[b]? = some s → Chain map.nodes s (s :: paths b)
  nodup : ∀ (b s : ℕ), map.buckets[b]? = some s → (s :: paths b).Nodup
  apart : ∀ (b c s t x : ℕ), map.buckets[b]? = some s → map.buckets[c]? = some t →
    x ∈ s :: paths b → x ∈ t :: paths c → b = c
  values : ∀ (b s : ℕ), map.buckets[b]? = some s →
    (values map.nodes (paths b) : Multiset ℤ) = bag.filter fun v => getIndex n v = b

variable {n b s x r : ℕ} {map map' : Map} {paths : ℕ → List ℕ} {bag : Multiset ℤ}
  {value v w : ℤ} {call : Call} {rest l : List ℕ} {history : List ((Call × ℕ) × Map)}

/-- The index is below the number of buckets if that is an `int`. -/
theorem getIndex_eq (hn : 1 ≤ n) (hmax : n < 2 ^ 31) (v : ℤ) :
    ∃ b, b < n ∧ getIndex n v = (b : ℤ) := by
  have hlt := Nat.mod_lt (v % 2 ^ 64).toNat hn
  refine ⟨(v % 2 ^ 64).toNat % n, hlt, ?_⟩
  unfold getIndex
  simp only [Nat.not_lt_zero, if_false]
  generalize (v % 2 ^ 64).toNat % n = b at hlt ⊢
  exact Int.bmod_eq_of_le (by omega) (by omega)

/-- The bucket of a value. -/
theorem Represents.bucket (h : Represents n map paths bag) (hn : 1 ≤ n) (hmax : n < 2 ^ 31)
    (v : ℤ) : ∃ b s : ℕ, getIndex n v = (b : ℤ) ∧ map.buckets[b]? = some s ∧
      map.bucket (getIndex map.length v) = some s := by
  rcases getIndex_eq hn hmax v with ⟨b, hb, hindex⟩
  have hs := List.getElem?_eq_getElem (show b < map.buckets.length by rw [h.buckets]; exact hb)
  refine ⟨b, _, hindex, hs, ?_⟩
  rw [h.length, hindex, Map.bucket, if_pos (Int.natCast_nonneg b), Int.toNat_natCast, hs]

/-- A value is stored in its bucket. -/
theorem Represents.mem_iff (h : Represents n map paths bag) (hs : map.buckets[b]? = some s)
    (hindex : getIndex n v = (b : ℤ)) : v ∈ LinkedCells.values map.nodes (paths b) ↔ v ∈ bag := by
  rw [← Multiset.mem_coe, h.values b s hs, Multiset.mem_filter]
  exact and_iff_left hindex

/-! ## The loops -/

/-- The loop of `remove_item` takes out the first node with the value, if there is one. -/
theorem remove_run (value : ℤ) (hc : Chain map.nodes x (x :: rest)) :
    (value ∉ values map.nodes rest ∧
        Loop.run (removeStep map value) (rest.length + 1) x = some (some (1, map))) ∨
      ∃ pre p y post d, x :: rest = pre ++ p :: y :: post ∧ map.nodes y = some d ∧
        d.value = value ∧ Loop.run (removeStep map value) (rest.length + 1) x =
          some (some (0, { map with nodes := unlinkAfter map.nodes p y d.next })) := by
  induction rest generalizing x with
  | nil =>
    rcases hc with ⟨-, -, c, hx, hnext⟩
    have hstep : removeStep map value x = .inr (some (1, map)) := by
      simp [removeStep, hx, show c.next = 0 from hnext]
    exact .inl ⟨by simp, Loop.run_succ_inr hstep⟩
  | cons y rest ih =>
    rcases hc with ⟨-, -, c, hx, hnext, hy0, d, hy, hrest⟩
    by_cases hvalue : d.value = value
    · have hstep : removeStep map value x =
          .inr (some (0, { map with nodes := unlinkAfter map.nodes x y d.next })) := by
        simp [removeStep, hx, hnext, hy0, hy, hvalue]
      exact .inr ⟨[], x, y, rest, d, rfl, hy, hvalue, Loop.run_succ_inr hstep⟩
    · -- not this one: on to the next node
      have hstep : removeStep map value x = .inl y := by
        simp [removeStep, hx, hnext, hy0, hy, hvalue]
      rw [List.length_cons, Loop.run_succ_inl hstep]
      rcases ih ⟨rfl, hy0, d, hy, hrest⟩ with
        ⟨habsent, hrun⟩ | ⟨pre, p, z, post, e, hsplit, hz, he, hrun⟩
      · refine .inl ⟨?_, hrun⟩
        rw [values_cons hy, List.mem_cons, not_or]
        exact ⟨Ne.symm hvalue, habsent⟩
      · exact .inr ⟨x :: pre, p, z, post, e, by rw [hsplit]; rfl, hz, he, hrun⟩

/-- The loop of `lookup_item` finds the value if a node has it. -/
theorem lookup_run (value : ℤ) (hc : Chain map.nodes x l) :
    Loop.run (lookupStep map value) (l.length + 1) x =
      some (some (if value ∈ values map.nodes l then 0 else 1)) := by
  induction l generalizing x with
  | nil =>
    have hstep : lookupStep map value x = .inr (some 1) := by
      simp [lookupStep, show x = 0 from hc]
    simpa using Loop.run_succ_inr hstep
  | cons y l ih =>
    rcases hc with ⟨rfl, hx0, c, hx, hrest⟩
    by_cases hvalue : c.value = value
    · have hstep : lookupStep map value x = .inr (some 0) := by
        simp [lookupStep, hx0, hx, hvalue]
      rw [Loop.run_succ_inr hstep, values_cons hx, hvalue, if_pos List.mem_cons_self]
    · have hstep : lookupStep map value x = .inl c.next := by
        simp [lookupStep, hx0, hx, hvalue]
      rw [List.length_cons, Loop.run_succ_inl hstep, ih hrest, values_cons hx]
      simp [Ne.symm hvalue]

/-- The loop of `print_hashmap` prints the values of all nodes. -/
theorem print_run (hc : Chain map.nodes x l) (printed : List ℤ) :
    Loop.run (printStep map) (l.length + 1) (x, printed) =
      some (some (printed ++ values map.nodes l)) := by
  induction l generalizing x printed with
  | nil =>
    have hstep : printStep map (x, printed) = .inr (some printed) := by
      simp [printStep, show x = 0 from hc]
    simpa using Loop.run_succ_inr hstep
  | cons y l ih =>
    rcases hc with ⟨rfl, hx0, c, hx, hrest⟩
    have hstep : printStep map (x, printed) = .inl (c.next, printed ++ [c.value]) := by
      simp [printStep, hx0, hx]
    rw [List.length_cons, Loop.run_succ_inl hstep, ih hrest, values_cons hx, List.append_assoc]
    rfl

/-! ## Insertion -/

/-- The nodes of one bucket change. -/
theorem Represents.replace (h : Represents n map paths bag) (hs : map.buckets[b]? = some s)
    {nodes : Cells ℤ} {q : List ℕ} {bag' : Multiset ℤ} (hnull : nodes 0 = none)
    (hfinite : ∃ m, ∀ x, m ≤ x → nodes x = none)
    (hsame : ∀ d t, map.buckets[d]? = some t → d ≠ b → ∀ y ∈ t :: paths d, nodes y = map.nodes y)
    (hchain : Chain nodes s (s :: q)) (hnodup : (s :: q).Nodup)
    (hown : ∀ d t y, map.buckets[d]? = some t → y ∈ t :: paths d → y ∈ s :: q → d = b)
    (hvalues : (LinkedCells.values nodes q : Multiset ℤ) = bag'.filter fun v => getIndex n v = b)
    (hbag : ∀ d : ℕ, d ≠ b → (bag'.filter fun v => getIndex n v = d) =
      bag.filter fun v => getIndex n v = d) :
    Represents n { map with nodes := nodes } (Function.update paths b q) bag' := by
  -- bucket `b` has the new path, the others have theirs
  have hpath : ∀ d t, map.buckets[d]? = some t →
      (d = b ∧ t = s ∧ Function.update paths b q d = q) ∨
        d ≠ b ∧ Function.update paths b q d = paths d := by
    intro d t ht
    by_cases hdb : d = b
    · subst hdb
      exact .inl ⟨rfl, Option.some.inj (ht.symm.trans hs), Function.update_self _ _ _⟩
    · exact .inr ⟨hdb, Function.update_of_ne hdb _ _⟩
  refine ⟨h.length, h.buckets, hnull, hfinite, fun d t ht => ?_, fun d t ht => ?_,
    fun d e t u y ht hu hy hy' => ?_, fun d t ht => ?_⟩
  · rcases hpath d t ht with ⟨-, rfl, hq⟩ | ⟨hdb, hq⟩ <;> rw [hq]
    · exact hchain
    · exact (h.chain d t ht).congr (hsame d t ht hdb)
  · rcases hpath d t ht with ⟨-, rfl, hq⟩ | ⟨hdb, hq⟩ <;> rw [hq]
    · exact hnodup
    · exact h.nodup d t ht
  · -- no node is in two lists: `hown` speaks for list `b`, `h.apart` for the others
    rcases hpath d t ht with ⟨hdb, ht', hq⟩ | ⟨-, hq⟩ <;>
      rcases hpath e u hu with ⟨heb, hu', hq'⟩ | ⟨-, hq'⟩ <;> rw [hq] at hy <;> rw [hq'] at hy'
    · exact hdb.trans heb.symm
    · exact hdb.trans (hown e u y hu hy' (ht' ▸ hy)).symm
    · exact (hown d t y ht hy (hu' ▸ hy')).trans heb.symm
    · exact h.apart d e t u y ht hu hy hy'
  · rcases hpath d t ht with ⟨rfl, -, hq⟩ | ⟨hdb, hq⟩ <;> rw [hq]
    · exact hvalues
    · rw [hbag d hdb, ← h.values d t ht,
        values_congr fun y hy => hsame d t ht hdb y (List.mem_cons_of_mem _ hy)]

theorem Represents.insert (h : Represents n map paths bag) (hindex : getIndex n v = (b : ℤ))
    (hs : map.buckets[b]? = some s) {c : Cell ℤ} (hc : map.nodes s = some c)
    (hfree : map.nodes x = none) (hx : x ≠ 0) :
    Represents n { map with nodes := linkAfter map.nodes s x v c.next }
      (Function.update paths b (x :: paths b)) (v ::ₘ bag) := by
  rcases (h.chain b s hs).link (v := v) hc (h.nodup b s hs) hfree hx with ⟨hchain, hvalues⟩
  -- no node is at the new address
  have hnew : ∀ d t, map.buckets[d]? = some t → x ∉ t :: paths d := by
    intro d t ht hmem
    have hsome := (h.chain d t ht).isSome hmem
    rw [hfree] at hsome
    cases hsome
  refine h.replace hs ?_ ?_ ?_ hchain ?_ ?_ ?_ ?_
  · rw [linkAfter_of_ne (h.chain b s hs).2.1.symm hx.symm, h.null]
  · rcases h.finite with ⟨m, hm⟩
    refine ⟨m + s + x + 1, fun z hz => ?_⟩
    rw [linkAfter_of_ne (by omega) (by omega), hm z (by omega)]
  · intro d t ht hdb y hy
    refine linkAfter_of_ne ?_ ?_
    · rintro rfl
      exact hdb (h.apart d b t y y ht hs hy List.mem_cons_self)
    · rintro rfl
      exact hnew d t ht hy
  · have hold := List.nodup_cons.mp (h.nodup b s hs)
    have hx' := hnew b s hs
    simp only [List.mem_cons, not_or] at hx'
    simp only [List.nodup_cons, List.mem_cons, not_or]
    exact ⟨⟨Ne.symm hx'.1, hold.1⟩, hx'.2, hold.2⟩
  · intro d t y ht hy hy'
    have hyx : y ≠ x := by
      rintro rfl
      exact hnew d t ht hy
    refine h.apart d b t s y ht hs hy ?_
    simpa [hyx] using hy'
  · rw [hvalues, Multiset.filter_cons_of_pos (p := fun v => getIndex n v = (b : ℤ)) _ hindex,
      ← h.values b s hs]
    rfl
  · intro d hdb
    exact Multiset.filter_cons_of_neg (p := fun v => getIndex n v = (d : ℤ)) _
      (by rw [hindex]; omega)

theorem insertItem_spec (h : Represents n map paths bag) (hn : 1 ≤ n) (hmax : n < 2 ^ 31)
    (hfree : map.nodes x = none) :
    ∃ map' paths', insertItem map v x = some ((bagStep (.insert v x) bag).1, map') ∧
      Represents n map' paths' (bagStep (.insert v x) bag).2 := by
  rcases h.bucket hn hmax v with ⟨b, s, hindex, hs, hbucket⟩
  by_cases hx : x = 0
  · refine ⟨map, paths, ?_, ?_⟩
    · simp [insertItem, hbucket, hx, bagStep]
    · simpa [bagStep, hx] using h
  · rcases h.chain b s hs with ⟨-, -, c, hc, -⟩
    have hrep := h.insert hindex hs hc hfree hx
    refine ⟨{ map with nodes := linkAfter map.nodes s x v c.next },
      Function.update paths b (x :: paths b), ?_, ?_⟩
    · simp [insertItem, hbucket, hx, hc, bagStep]
    · simpa [bagStep, hx] using hrep

/-! ## Removal -/

/-- A path from the sentinel on without one of its nodes. -/
theorem cons_without {q : List ℕ} {p y : ℕ} {pre post : List ℕ}
    (h : s :: q = pre ++ p :: y :: post) : ∃ q', s :: q' = pre ++ p :: post := by
  cases pre with
  | nil =>
    rw [List.nil_append, List.cons.injEq] at h
    exact ⟨post, by rw [h.1]; rfl⟩
  | cons z pre =>
    rw [List.cons_append, List.cons.injEq] at h
    exact ⟨pre ++ p :: post, by rw [h.1]; rfl⟩

/-- The values of a path without one of its nodes. -/
theorem values_without {cells : Cells ℤ} {q q' : List ℕ} {p y : ℕ} {pre post : List ℕ}
    {d : Cell ℤ} (hc : Chain cells s (s :: q)) (hsplit : s :: q = pre ++ p :: y :: post)
    (hsplit' : s :: q' = pre ++ p :: post) (hy : cells y = some d) (hnodup : (s :: q).Nodup) :
    (values cells q : Multiset ℤ) =
      d.value ::ₘ (values (unlinkAfter cells p y d.next) q' : Multiset ℤ) := by
  have hmem : p ∈ s :: q := by simp [hsplit]
  rcases Option.isSome_iff_exists.mp (hc.isSome hmem) with ⟨e, hp⟩
  rcases hc with ⟨-, -, c, hs, -⟩
  have hgone : y ∉ pre ++ p :: post := by
    rw [hsplit, List.nodup_append] at hnodup
    rcases hnodup with ⟨-, htail, hdisjoint⟩
    simp only [List.nodup_cons, List.mem_cons, not_or] at htail
    simp only [List.mem_append, List.mem_cons, not_or]
    refine ⟨fun hpre => hdisjoint y hpre y (by simp) rfl, Ne.symm htail.1.1, htail.2.1⟩
  have hq' : y ∉ q' := fun hmem => hgone (hsplit' ▸ List.mem_cons_of_mem _ hmem)
  rw [values_unlinkAfter hq' hp]
  -- compare both paths with their sentinel
  have hfull : (values cells (s :: q) : Multiset ℤ) =
      d.value ::ₘ (values cells (s :: q') : Multiset ℤ) := by
    rw [hsplit, hsplit', values_append, values_append, values_cons hp, values_cons hp,
      values_cons hy]
    simp only [← Multiset.coe_add, ← Multiset.cons_coe]
    rw [Multiset.cons_swap, Multiset.add_cons]
  rw [values_cons hs, values_cons hs] at hfull
  simp only [← Multiset.cons_coe] at hfull
  rw [Multiset.cons_swap] at hfull
  exact (Multiset.cons_inj_right _).mp hfull

theorem Represents.remove (h : Represents n map paths bag) (hindex : getIndex n v = (b : ℤ))
    (hs : map.buckets[b]? = some s) {p y : ℕ} {pre post : List ℕ} {d : Cell ℤ}
    (hsplit : s :: paths b = pre ++ p :: y :: post) (hy : map.nodes y = some d)
    (hv : d.value = v) :
    v ∈ bag ∧ ∃ paths', Represents n { map with nodes := unlinkAfter map.nodes p y d.next } paths'
      (bag.erase v) := by
  rcases cons_without hsplit with ⟨q', hsplit'⟩
  have hnodup := h.nodup b s hs
  have hvalues := values_without (h.chain b s hs) hsplit hsplit' hy hnodup
  rw [h.values b s hs, hv] at hvalues
  have hbag : v ∈ bag := by
    have hmem := Multiset.mem_cons_self v
      (LinkedCells.values (unlinkAfter map.nodes p y d.next) q' : Multiset ℤ)
    rw [← hvalues] at hmem
    exact (Multiset.mem_filter.mp hmem).1
  have hsub : List.Sublist (s :: q') (s :: paths b) := by
    rw [hsplit, hsplit']
    exact (List.Sublist.refl pre).append ((List.sublist_cons_self y post).cons_cons p)
  have hsplitBag := Multiset.cons_erase hbag
  refine ⟨hbag, Function.update paths b q', h.replace hs ?_ ?_ ?_ ?_ (hnodup.sublist hsub) ?_ ?_ ?_⟩
  · -- null is not the address of a node
    have hnull : ∀ z, z ∈ s :: paths b → (0 : ℕ) ≠ z := by
      rintro z hz rfl
      have hsome := (h.chain b s hs).isSome hz
      rw [h.null] at hsome
      cases hsome
    rw [unlinkAfter_of_ne (hnull p (by simp [hsplit])) (hnull y (by simp [hsplit])), h.null]
  · rcases h.finite with ⟨m, hm⟩
    refine ⟨m + p + y + 1, fun z hz => ?_⟩
    rw [unlinkAfter_of_ne (by omega) (by omega), hm z (by omega)]
  · intro e t ht heb z hz
    refine unlinkAfter_of_ne ?_ ?_
    · rintro rfl
      exact heb (h.apart e b t s z ht hs hz (by simp [hsplit]))
    · rintro rfl
      exact heb (h.apart e b t s z ht hs hz (by simp [hsplit]))
  · have hchain := h.chain b s hs
    rw [hsplit] at hchain hnodup
    rw [hsplit']
    exact hchain.unlink hy hnodup
  · intro e t z ht hz hz'
    exact h.apart e b t s z ht hs hz (hsub.subset hz')
  · rw [← hsplitBag,
      Multiset.filter_cons_of_pos (p := fun v => getIndex n v = (b : ℤ)) _ hindex] at hvalues
    exact ((Multiset.cons_inj_right _).mp hvalues).symm
  · intro e heb
    conv_rhs => rw [← hsplitBag]
    exact (Multiset.filter_cons_of_neg (p := fun v => getIndex n v = (e : ℤ)) _
      (by rw [hindex]; omega)).symm

theorem removeItem_spec (h : Represents n map paths bag) (hn : 1 ≤ n) (hmax : n < 2 ^ 31)
    (v : ℤ) : ∃ rounds map' paths',
      removeItem rounds map v = some ((bagStep (.remove v) bag).1, map') ∧
        Represents n map' paths' (bagStep (.remove v) bag).2 := by
  rcases h.bucket hn hmax v with ⟨b, s, hindex, hs, hbucket⟩
  have hmem := h.mem_iff hs hindex
  rcases remove_run v (h.chain b s hs) with
    ⟨habsent, hrun⟩ | ⟨pre, p, y, post, d, hsplit, hy, hv, hrun⟩
  · rw [hmem] at habsent
    refine ⟨(paths b).length + 1, map, paths, ?_, ?_⟩
    · simp only [removeItem, hbucket, Option.bind_eq_bind, Option.bind_some, hrun, Option.join_some,
        bagStep, if_neg habsent]
    · simpa [bagStep, habsent] using h
  · rcases h.remove hindex hs hsplit hy hv with ⟨hbag, paths', hrep⟩
    refine ⟨(paths b).length + 1, { map with nodes := unlinkAfter map.nodes p y d.next }, paths',
      ?_, ?_⟩
    · simp only [removeItem, hbucket, Option.bind_eq_bind, Option.bind_some, hrun, Option.join_some,
        bagStep, if_pos hbag]
    · simpa [bagStep, hbag] using hrep

/-! ## Lookup -/

theorem lookupItem_spec (h : Represents n map paths bag) (hn : 1 ≤ n) (hmax : n < 2 ^ 31)
    (v : ℤ) : ∃ rounds, lookupItem rounds map v = some (bagStep (.lookup v) bag).1 := by
  rcases h.bucket hn hmax v with ⟨b, s, hindex, hs, hbucket⟩
  rcases h.chain b s hs with ⟨-, -, c, hc, hrest⟩
  refine ⟨(paths b).length + 1, ?_⟩
  simp only [lookupItem, hbucket, hc, Option.bind_eq_bind, Option.bind_some, lookup_run v hrest,
    Option.join_some, h.mem_iff hs hindex, bagStep]

/-! ## Refinement -/

/-- A call that returned would have returned the same with more rounds. -/
theorem mapStep_unique {m m' : ℕ} {r r' : ℕ × Map} (h : mapStep m call map = some r)
    (h' : mapStep m' call map = some r') : r = r' := by
  cases call with
  | insert => exact Option.some.inj (h.symm.trans h')
  | remove =>
    simp only [mapStep, removeItem, Option.bind_eq_bind, Option.bind_eq_some_iff,
      Option.join_eq_some_iff] at h h'
    rcases h with ⟨s, hs, hrun⟩
    rcases h' with ⟨t, ht, hrun'⟩
    rcases Option.some.inj (hs.symm.trans ht) with rfl
    exact Option.some.inj (Loop.run_unique hrun hrun')
  | lookup =>
    simp only [mapStep, lookupItem, Option.map_eq_some_iff, Option.bind_eq_bind,
      Option.bind_eq_some_iff, Option.join_eq_some_iff] at h h'
    rcases h with ⟨k, ⟨s, hs, c, hc, hrun⟩, rfl⟩
    rcases h' with ⟨k', ⟨t, ht, e, he, hrun'⟩, rfl⟩
    rcases Option.some.inj (hs.symm.trans ht) with rfl
    rcases Option.some.inj (hc.symm.trans he) with rfl
    rw [Option.some.inj (Loop.run_unique hrun hrun')]

/-- Every call returns, with the result code and the effect of the multiset. -/
theorem map_step (h : Represents n map paths bag) (hn : 1 ≤ n) (hmax : n < 2 ^ 31)
    (hallowed : call.Allowed map) :
    ∃ rounds map' paths', mapStep rounds call map = some ((bagStep call bag).1, map') ∧
      Represents n map' paths' (bagStep call bag).2 := by
  cases call with
  | insert value insertion =>
    rcases insertItem_spec (v := value) h hn hmax hallowed with ⟨map', paths', hrun, hrep⟩
    exact ⟨0, map', paths', hrun, hrep⟩
  | remove value => exact removeItem_spec h hn hmax value
  | lookup value =>
    rcases lookupItem_spec h hn hmax value with ⟨rounds, hrun⟩
    exact ⟨rounds, map, paths, by simp [mapStep, hrun, bagStep], h⟩

theorem map_next (h : Represents n map paths bag) (hn : 1 ≤ n) (hmax : n < 2 ^ 31)
    (hnext : (mapSystem n).Next (call, r) map map') :
    r = (bagStep call bag).1 ∧ ∃ paths', Represents n map' paths' (bagStep call bag).2 := by
  rcases hnext with ⟨hallowed, rounds, hstep⟩
  rcases map_step h hn hmax hallowed with ⟨rounds', map'', paths', hstep', hrep⟩
  rcases Prod.mk.inj (mapStep_unique hstep hstep') with ⟨hresult, rfl⟩
  exact ⟨hresult, paths', hrep⟩

theorem alloc_represents (n : ℕ) : Represents n (allocHashmap n) (fun _ => []) 0 := by
  -- each bucket has a sentinel of its own
  have hbucket : ∀ b s : ℕ, (allocHashmap n).buckets[b]? = some s → b < n ∧ s = b + 1 := by
    intro b s hs
    simp only [allocHashmap, List.getElem?_map, Option.map_eq_some_iff] at hs
    rcases hs with ⟨i, hi, rfl⟩
    rcases List.getElem?_eq_some_iff.mp hi with ⟨hlt, heq⟩
    rw [List.length_range] at hlt
    rw [List.getElem_range] at heq
    exact ⟨hlt, by omega⟩
  refine ⟨rfl, by simp [allocHashmap], by simp [allocHashmap], ⟨n + 1, fun x hx => if_neg (by omega)⟩,
    ?_, fun _ _ _ => by simp, ?_, ?_⟩
  · intro b s hs
    rcases hbucket b s hs with ⟨hb, rfl⟩
    exact ⟨rfl, by omega, ⟨0, 0⟩, if_pos (by omega), rfl⟩
  · intro b c s t x hs ht hx hx'
    have hb := (hbucket b s hs).2
    have hc := (hbucket c t ht).2
    simp only [List.mem_cons, List.not_mem_nil, or_false] at hx hx'
    omega
  · intro b s hs
    simp

/-! ## What is stored -/

theorem mapM_eq_range {α β : Type*} {f : α → Option β} {g : ℕ → β} {as : List α}
    (h : ∀ (i : ℕ) (a : α), as[i]? = some a → f a = some (g i)) :
    as.mapM f = some ((List.range as.length).map g) := by
  induction as generalizing g with
  | nil => rfl
  | cons a as ih =>
    have htail := ih (g := fun i => g (i + 1)) fun i b hb => h (i + 1) b (by simpa using hb)
    rw [List.mapM_cons, h 0 a (by simp), htail, List.length_cons, List.range_succ_eq_map]
    simp [List.map_map, Function.comp_def]

/-- What `print_hashmap` prints. -/
theorem Represents.prints (h : Represents n map paths bag) :
    ∃ rounds, printHashmap rounds map =
      some ((List.range n).map fun b => LinkedCells.values map.nodes (paths b)) := by
  refine ⟨(Finset.range n).sup (fun b => (paths b).length) + 1, ?_⟩
  rw [← h.buckets]
  refine mapM_eq_range fun b s hs => ?_
  rcases h.chain b s hs with ⟨-, -, c, hc, hrest⟩
  have hb : b ∈ Finset.range map.buckets.length :=
    Finset.mem_range.mpr (List.getElem?_eq_some_iff.mp hs).1
  have hle : (paths b).length + 1 ≤
      (Finset.range map.buckets.length).sup (fun b => (paths b).length) + 1 :=
    Nat.succ_le_succ (Finset.le_sup (f := fun b => (paths b).length) hb)
  have hrun := Loop.run_mono hle (print_run hrest [])
  simp [hc, hrun]

/-- The number of copies over all buckets is that of the multiset. -/
theorem Represents.count_eq (h : Represents n map paths bag) (hn : 1 ≤ n) (hmax : n < 2 ^ 31)
    (v : ℤ) : ((List.range n).map fun b => LinkedCells.values map.nodes (paths b)).flatten.count v =
      bag.count v := by
  rcases getIndex_eq hn hmax v with ⟨b, hb, hindex⟩
  have hcount : ∀ c ∈ Finset.range n, (LinkedCells.values map.nodes (paths c)).count v =
      if c = b then bag.count v else 0 := by
    intro c hc
    have hlt : c < map.buckets.length := by
      rw [h.buckets]
      exact Finset.mem_range.mp hc
    rw [← Multiset.coe_count, h.values c _ (List.getElem?_eq_getElem hlt), Multiset.count_filter,
      hindex]
    simp only [Nat.cast_inj, eq_comm]
  rw [List.count_flatten, List.map_map]
  calc ((List.range n).map (List.count v ∘ fun b => LinkedCells.values map.nodes (paths b))).sum
      = ∑ c ∈ Finset.range n, (LinkedCells.values map.nodes (paths c)).count v := rfl
    _ = ∑ c ∈ Finset.range n, if c = b then bag.count v else 0 := Finset.sum_congr rfl hcount
    _ = bag.count v := by simp [hb]

/-! ## Runs -/

/-- The insertions of `v` that have returned `0`. -/
def inserted (v : ℤ) (history : List ((Call × ℕ) × Map)) : ℕ :=
  history.countP fun x => match x.1 with
    | (.insert w _, result) => w = v && result = 0
    | _ => false

/-- The removals of `v` that have returned `0`. -/
def removed (v : ℤ) (history : List ((Call × ℕ) × Map)) : ℕ :=
  history.countP fun x => match x.1 with
    | (.remove w, result) => w = v && result = 0
    | _ => false

theorem inserted_cons (l : Call × ℕ) : inserted v ((l, map) :: history) = inserted v history +
    match l with
    | (.insert w _, result) => if w = v ∧ result = 0 then 1 else 0
    | _ => 0 := by
  rcases l with ⟨call, result⟩
  cases call <;> simp [inserted, List.countP_cons]

theorem removed_cons (l : Call × ℕ) : removed v ((l, map) :: history) = removed v history +
    match l with
    | (.remove w, result) => if w = v ∧ result = 0 then 1 else 0
    | _ => 0 := by
  rcases l with ⟨call, result⟩
  cases call <;> simp [removed, List.countP_cons]

/-- The multiset that is left after the calls so far. -/
theorem run_represents (hn : 1 ≤ n) (hmax : n < 2 ^ 31) (hr : Run (mapSystem n) history map) :
    ∃ paths bag, Represents n map paths bag ∧
      ∀ v, bag.count v + removed v history = inserted v history := by
  induction hr with
  | init hinit =>
    subst hinit
    exact ⟨_, _, alloc_represents n, fun v => by simp [removed, inserted]⟩
  | @step history map map' l _ hnext ih =>
    rcases ih with ⟨paths, bag, hrep, hcount⟩
    rcases l with ⟨call, result⟩
    rcases map_next hrep hn hmax hnext with ⟨hresult, paths', hrep'⟩
    refine ⟨paths', _, hrep', fun v => ?_⟩
    have hold := hcount v
    rw [inserted_cons, removed_cons]
    cases call with
    | insert w x =>
      -- `new` has failed if `x` is null: nothing is inserted
      by_cases hx : x = 0
      · simp only [bagStep, hx, if_true] at hresult ⊢
        simp [hresult, hold]
      · simp only [bagStep, hx, if_false] at hresult ⊢
        rw [Multiset.count_cons]
        simp only [hresult, and_true]
        by_cases hw : v = w
        · simp only [hw, if_true] at hold ⊢
          omega
        · simp only [hw, Ne.symm hw, if_false] at hold ⊢
          omega
    | remove w =>
      by_cases hmem : w ∈ bag
      · simp only [bagStep, hmem, if_true] at hresult ⊢
        simp only [hresult, and_true]
        by_cases hw : w = v
        · subst hw
          have hpos := Multiset.count_pos.mpr hmem
          rw [Multiset.count_erase_self, if_pos rfl]
          omega
        · rw [Multiset.count_erase_of_ne (Ne.symm hw), if_neg hw]
          exact hold
      · simp only [bagStep, hmem, if_false] at hresult ⊢
        simp [hresult, hold]
    | lookup => simpa [bagStep] using hold

/-- The copies of `w` that are stored after a call, from what was stored before it. -/
def Call.copies (stored : List ℤ) (w : ℤ) : Call → ℕ
  | .insert v insertion => if insertion ≠ 0 ∧ w = v then stored.count w + 1 else stored.count w
  | .remove v => if w = v then stored.count w - 1 else stored.count w
  | .lookup _ => stored.count w

/-- The result code of a call, from what is stored. -/
def Call.result (stored : List ℤ) : Call → ℕ
  | .insert _ insertion => if insertion = 0 then 1 else 0
  | .remove v | .lookup v => if v ∈ stored then 0 else 1

theorem bagStep_result {stored : List ℤ} (hcount : ∀ v, stored.count v = bag.count v) :
    (bagStep call bag).1 = call.result stored := by
  have hmem : ∀ v, v ∈ bag ↔ v ∈ stored := by
    intro v
    rw [← Multiset.count_pos, ← List.count_pos_iff, hcount]
  cases call with
  | insert v x =>
    by_cases hx : x = 0
    · simp [bagStep, Call.result, hx]
    · simp [bagStep, Call.result, hx]
  | remove v =>
    by_cases hv : v ∈ bag
    · simp [bagStep, Call.result, hv, (hmem v).mp hv]
    · simp [bagStep, Call.result, hv, mt (hmem v).mpr hv]
  | lookup => simp only [bagStep, Call.result, hmem]

/-- The result code depends only on whether the value is there. -/
theorem bagStep_congr {bag' : Multiset ℤ} (hmem : call.value ∈ bag' ↔ call.value ∈ bag) :
    (bagStep call bag').1 = (bagStep call bag).1 := by
  cases call with
  | insert v x =>
    by_cases hx : x = 0
    · simp [bagStep, hx]
    · simp [bagStep, hx]
  | remove v =>
    simp only [Call.value] at hmem
    by_cases hv : v ∈ bag
    · simp [bagStep, hv, hmem.mpr hv]
    · simp [bagStep, hv, mt hmem.mp hv]
  | lookup =>
    simp only [Call.value] at hmem
    simp only [bagStep, hmem]

theorem bagStep_count {stored : List ℤ} (hcount : ∀ v, stored.count v = bag.count v) (w : ℤ) :
    (bagStep call bag).2.count w = call.copies stored w := by
  cases call with
  | insert v x =>
    by_cases hx : x = 0
    · simp [bagStep, Call.copies, hx, hcount]
    · simp only [bagStep, Call.copies, hx, if_false, not_false_eq_true, ne_eq, true_and, hcount,
        Multiset.count_cons]
      split <;> rfl
  | remove v =>
    -- `remove` of a value that is not there changes nothing
    by_cases hv : v ∈ bag
    · simp only [bagStep, Call.copies, hv, if_true, hcount]
      split
      · rename_i heq
        rw [heq, Multiset.count_erase_self]
      · rename_i hne
        exact Multiset.count_erase_of_ne hne bag
    · simp only [bagStep, Call.copies, hv, if_false, hcount]
      split
      · rename_i heq
        rw [heq, Multiset.count_eq_zero_of_notMem hv]
      · rfl
  | lookup => simp [bagStep, Call.copies, hcount]

/-- What `print_hashmap` prints in a state. -/
def Prints (map : Map) (stored : List (List ℤ)) : Prop :=
  ∃ rounds, printHashmap rounds map = some stored

/-- The results of calls of other values are the same before and after a call. -/
def Independent (n : ℕ) (map map' : Map) (call : Call) : Prop :=
  ∀ other, other.value ≠ call.value → ∀ r r' t t', (mapSystem n).Next (other, r) map t →
    (mapSystem n).Next (other, r') map' t' → r' = r

/-- In every state of every run, the values that are stored lie in their buckets, and there
are as many copies of each as insertions of it have succeeded without a removal. Every call
returns; it returns the result code of a multiset and has its effect, and it does not change
the results of calls of other values. -/
theorem map_is_multiset (hn : 1 ≤ n) (hmax : n < 2 ^ 31) (hr : Run (mapSystem n) history map) :
    ∃ stored, Prints map stored ∧ stored.length = n ∧
      (∀ (b : ℕ) (vs : List ℤ), stored[b]? = some vs → ∀ v ∈ vs, getIndex n v = b) ∧
      (∀ v, stored.flatten.count v + removed v history = inserted v history) ∧
      ∀ call, call.Allowed map → ∃ map' stored',
        (mapSystem n).Next (call, call.result stored.flatten) map map' ∧ Prints map' stored' ∧
        (∀ w, stored'.flatten.count w = call.copies stored.flatten w) ∧
        (∀ r t, (mapSystem n).Next (call, r) map t → r = call.result stored.flatten ∧ t = map') ∧
        Independent n map map' call := by
  rcases run_represents hn hmax hr with ⟨paths, bag, hrep, hcount⟩
  have hstored := hrep.count_eq hn hmax
  refine ⟨_, hrep.prints, by simp, ?_, fun v => by rw [hstored, hcount], ?_⟩
  · intro b vs hb v hv
    simp only [List.getElem?_map, Option.map_eq_some_iff] at hb
    rcases hb with ⟨i, hi, rfl⟩
    rcases List.getElem?_eq_some_iff.mp hi with ⟨hlt, heq⟩
    rw [List.length_range] at hlt
    rw [List.getElem_range] at heq
    subst heq
    have hs := List.getElem?_eq_getElem (show b < map.buckets.length by rw [hrep.buckets]; exact hlt)
    rw [← Multiset.mem_coe, hrep.values b _ hs] at hv
    exact (Multiset.mem_filter.mp hv).2
  · intro call hallowed
    rcases map_step hrep hn hmax hallowed with ⟨rounds, map', paths', hstep, hrep'⟩
    rw [bagStep_result hstored] at hstep
    have hstored' := hrep'.count_eq hn hmax
    refine ⟨map', _, ⟨hallowed, rounds, hstep⟩, hrep'.prints, fun w => ?_, ?_, ?_⟩
    · rw [hstored', bagStep_count hstored]
    · intro r t hnext
      rcases hnext with ⟨-, rounds', hstep'⟩
      exact Prod.mk.inj (mapStep_unique hstep' hstep)
    · -- the copies of other values are the same, and they determine the result
      intro other hother r r' t t' hnext hnext'
      rw [(map_next hrep hn hmax hnext).1, (map_next hrep' hn hmax hnext').1]
      have hsame : ∀ w, w ≠ call.value → (bagStep call bag).2.count w = bag.count w := by
        intro w hw
        rw [bagStep_count hstored]
        cases call <;> simp_all [Call.copies, Call.value]
      refine bagStep_congr ?_
      rw [← Multiset.count_pos, hsame _ hother, Multiset.count_pos]

/-! ## A run -/

instance (map : Map) (call : Call) : Decidable (call.Allowed map) :=
  match call with
  | .insert _ insertion => inferInstanceAs (Decidable (map.nodes insertion = none))
  | .remove _ | .lookup _ => inferInstanceAs (Decidable True)

/-- The step of an allowed call with its result code. -/
def mapNext (rounds : ℕ) (l : Call × ℕ) (map : Map) : Option Map :=
  if l.1.Allowed map then
    match mapStep rounds l.1 map with
    | some (r, map') => if r = l.2 then some map' else none
    | none => none
  else none

/-- Two copies of a negative value and one of another value in the same bucket; one copy is
removed again. -/
theorem map_is_multiset_copies :
    ∃ history map, Run (mapSystem 3) history map ∧ inserted (-5) history = 2 ∧
      removed (-5) history = 1 ∧ ∃ stored, Prints map stored ∧ stored.flatten.count (-5) = 1 := by
  have hrun : (exec (mapNext 5)
      [(.insert (-5) 4, 0), (.insert 2 5, 0), (.insert (-5) 6, 0), (.insert 7 0, 1),
        (.remove (-5), 0), (.lookup (-5), 0), (.lookup 3, 1)] [] (allocHashmap 3)).map
        (fun x => (inserted (-5) x.1, removed (-5) x.1)) = some (2, 1) := by
    decide +kernel
  rcases Option.map_eq_some_iff.mp hrun with ⟨x, hx, hresult⟩
  simp only [Prod.mk.injEq] at hresult
  have h0 : Run (mapSystem 3) [] (allocHashmap 3) := .init rfl
  have hr : Run (mapSystem 3) x.1 x.2 := by
    refine h0.exec (fun l t t' ht => ?_) hx
    unfold mapNext at ht
    split at ht
    · rename_i hallowed
      refine ⟨hallowed, 5, ?_⟩
      split at ht
      · rename_i r map' hstep
        split at ht
        · rename_i hr
          rw [hstep, Option.some.inj ht, hr]
        · cases ht
      · cases ht
    · cases ht
  rcases map_is_multiset (by decide) (by decide) hr with ⟨stored, hprints, -, -, hcount, -⟩
  -- as many copies as were inserted and not removed
  have hcopies := hcount (-5)
  rw [hresult.1, hresult.2] at hcopies
  exact ⟨x.1, x.2, hr, hresult.1, hresult.2, stored, hprints, by omega⟩

end SysProg.HashMap
