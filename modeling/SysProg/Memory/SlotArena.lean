import Mathlib.Tactic
import SysProg.Memory.SlotAllocator

/-!
# One arena of the slot allocator

* `Tiled a` — the headers cut the arena into spans; `CursorOk a` — the cursor stands
  on the start of a span, or on the end;
* `UsedSpan a k r` — a used span of `r` slots starts at slot `k`;
* `search_spec` — what the search for a free span does to the arena. It is stated for
  a cursor on a span start, and also for one inside the span that a reallocation has
  just extended (`StaleCursor`): the leftover headers there lead the search to the end
  of that span;
* `search_found_iff` — it finds a span exactly when there is room behind the cursor.
-/

namespace SysProg.Memory

open Spans

/-- The headers of the arena cut it into spans. -/
def Tiled (a : SlotArena) : Prop :=
  ∃ l, Seg a.slots 0 l slotCount

/-- The cursor is the start of a span of the header chain, or the end. -/
def CursorOk (a : SlotArena) : Prop :=
  Start a.slots slotCount a.cursor ∨ a.cursor = slotCount

/-- A used span of `r` slots starts at slot `k`. -/
def UsedSpan (a : SlotArena) (k r : ℕ) : Prop :=
  Start a.slots slotCount k ∧ a.slots k = ⟨r, true⟩

/-- Slot `k` is inside a used span and holds data. Leftover headers of an extended span are
not counted: they are at the cursor or behind it. -/
def DataSlot (a : SlotArena) (k : ℕ) : Prop :=
  ∃ i r, UsedSpan a i r ∧ i < k ∧ k < i + r ∧ (CursorOk a ∨ k < a.cursor)

variable {a b : SlotArena} {l : List Span} {i j k r required n : ℕ}

theorem usedSpan_iff (hs : Seg a.slots 0 l slotCount) :
    UsedSpan a k r ↔ At l k ⟨r, true⟩ := by
  unfold UsedSpan
  rw [hs.start_iff (by decide)]
  constructor
  · intro h
    have hat := h.1.2.at_of_lt hs h.1.1
    rwa [h.2] at hat
  · intro h
    have hspec := hs.at_spec h
    refine ⟨⟨?_, h.isStart⟩, hspec.1⟩
    have hpos : 0 < r := hspec.2.1
    have hle : k + r ≤ slotCount := hspec.2.2
    omega

theorem cursorOk_iff (hs : Seg a.slots 0 l slotCount) : CursorOk a ↔ IsStart l a.cursor := by
  unfold CursorOk
  rw [hs.start_iff (by decide)]
  constructor
  · intro h
    rcases h with h | h
    · exact h.2
    · rw [h]
      exact hs.isStart_end
  · intro h
    have hle : a.cursor ≤ slotCount := by
      rcases h with ⟨pre, post, rfl, hk⟩
      have hend := hs.end_eq
      simp only [total_append] at hend
      omega
    rcases Nat.lt_or_eq_of_le hle with hlt | heq
    · exact .inl ⟨hlt, h⟩
    · exact .inr heq

/-- Used spans lie inside the arena and have slots. -/
theorem UsedSpan.bounds (ht : Tiled a) (h : UsedSpan a k r) : 0 < r ∧ k + r ≤ slotCount := by
  rcases ht with ⟨l, hs⟩
  exact (hs.at_spec ((usedSpan_iff hs).mp h)).2

/-- Two used spans are the same or have no slot in common. -/
theorem UsedSpan.disjoint {k' r' : ℕ} (ht : Tiled a) (h : UsedSpan a k r)
    (h' : UsedSpan a k' r') : k = k' ∧ r = r' ∨ k + r ≤ k' ∨ k' + r' ≤ k := by
  rcases ht with ⟨l, hs⟩
  rw [usedSpan_iff hs] at h h'
  rcases Nat.lt_trichotomy k k' with hlt | rfl | hlt
  · exact .inr (.inl (h.end_le h'.isStart hlt))
  · have heq := hs.at_unique h h'
    simp only [Span.mk.injEq, and_true] at heq
    exact .inl ⟨rfl, heq⟩
  · exact .inr (.inr (h'.end_le h.isStart hlt))

/-- The arena after a search that only tidied it up: spans were merged, but the used
spans and their data are the same, and a good cursor is still good. -/
structure Tidied (a b : SlotArena) : Prop where
  base : b.base = a.base
  cursor : b.cursor = a.cursor
  tiled : Tiled b
  used : ∀ k r, UsedSpan b k r ↔ UsedSpan a k r
  cursorOk : CursorOk a → CursorOk b
  data : ∀ k, DataSlot a k → b.slots k = a.slots k

/-- The arena after a search that took a span of `required` slots at `i`. -/
structure Served (a b : SlotArena) (i required : ℕ) : Prop where
  base : b.base = a.base
  tiled : Tiled b
  cursorOk : CursorOk b
  used : ∀ k r, UsedSpan b k r ↔ UsedSpan a k r ∨ k = i ∧ r = required
  free : ∀ r, ¬ UsedSpan a i r
  data : ∀ k, DataSlot a k → b.slots k = a.slots k

/-- The cursor stands inside a used span, on headers that were free spans before the
span was extended over them; together they are too short for the request, and what
follows the span is not free. -/
structure StaleCursor (a : SlotArena) (required i r : ℕ) (stale : List Span) : Prop where
  span : UsedSpan a i r
  inside : i < a.cursor
  seg : Seg a.slots a.cursor stale (i + r)
  nonempty : stale ≠ []
  unused : ∀ s ∈ stale, s.used = false
  short : total stale < required
  closed : i + r = slotCount ∨ (a.slots (i + r)).used = true

/-! ## The search -/

/-- `DataSlot` for the spans `l` of an arena. -/
def InData (l : List Span) (cursor k : ℕ) : Prop :=
  ∃ i r, At l i ⟨r, true⟩ ∧ i < k ∧ k < i + r ∧ (IsStart l cursor ∨ k < cursor)

theorem dataSlot_iff (hs : Seg a.slots 0 l slotCount) : DataSlot a k ↔ InData l a.cursor k := by
  unfold DataSlot InData
  rw [cursorOk_iff hs]
  simp only [usedSpan_iff hs]

/-- The search stands at the start of a span. -/
structure AtSpan (a₀ : SlotArena) (l₀ : List Span) (s : SlotArena × ℕ) (l : List Span) : Prop where
  base : s.1.base = a₀.base
  cursor : s.1.cursor = a₀.cursor
  seg : Seg s.1.slots 0 l slotCount
  used : ∀ k r, At l k ⟨r, true⟩ ↔ At l₀ k ⟨r, true⟩
  kept : IsStart l₀ a₀.cursor → IsStart l a₀.cursor
  position : IsStart l s.2
  ahead : a₀.cursor ≤ s.2
  data : ∀ k, InData l₀ a₀.cursor k → s.1.slots k = a₀.slots k

/-- The search stands on leftover headers inside a used span. -/
structure InStale (a₀ : SlotArena) (l₀ : List Span) (required : ℕ) (s : SlotArena × ℕ)
    (i r : ℕ) (stale : List Span) : Prop where
  base : s.1.base = a₀.base
  cursor : s.1.cursor = a₀.cursor
  ahead : s.2 = a₀.cursor
  tiled : Seg s.1.slots 0 l₀ slotCount
  span : At l₀ i ⟨r, true⟩
  inside : i < s.2
  seg : Seg s.1.slots s.2 stale (i + r)
  nonempty : stale ≠ []
  unused : ∀ s ∈ stale, s.used = false
  short : total stale < required
  closed : i + r = slotCount ∨ (s.1.slots (i + r)).used = true
  data : ∀ k, InData l₀ a₀.cursor k → s.1.slots k = a₀.slots k

def SearchInv (a₀ : SlotArena) (l₀ : List Span) (required : ℕ) (s : SlotArena × ℕ) : Prop :=
  (∃ l, AtSpan a₀ l₀ s l) ∨ ∃ i r stale, InStale a₀ l₀ required s i r stale

/-- Every step moves on by a span or lengthens the span in front of it. -/
def searchMeasure (s : SlotArena × ℕ) : ℕ :=
  2 * (slotCount - s.2) - (s.1.slots s.2).length

def SearchPost (a₀ : SlotArena) (required : ℕ) (r : SlotArena × Option ℕ) : Prop :=
  match r.2 with
  | none => Tidied a₀ r.1
  | some i => Served a₀ r.1 i required

/-- The span at `i` has no free span behind it to merge with. -/
def NoFreeSuccessor (a : SlotArena) (i : ℕ) : Prop :=
  i + (a.slots i).length < slotCount → (a.successor i).used = true

/-- What one step of the search does at the index `i`. -/
inductive SearchRound (required : ℕ) (a : SlotArena) (i : ℕ) :
    (SlotArena × ℕ) ⊕ (SlotArena × Option ℕ) → Prop where
  | ended : slotCount ≤ i → SearchRound required a i (.inr (a, none))
  | used : i < slotCount → (a.slots i).used = true →
      SearchRound required a i (.inl (a, i + (a.slots i).length))
  | merge : (a.slots i).used = false → i + (a.slots i).length < slotCount →
      (a.successor i).used = false → SearchRound required a i (.inl (a.mergeNext i, i))
  | small : i < slotCount → (a.slots i).used = false → NoFreeSuccessor a i →
      (a.slots i).length < required → SearchRound required a i (.inl (a, i + (a.slots i).length))
  | take : i < slotCount → (a.slots i).used = false → NoFreeSuccessor a i →
      required ≤ (a.slots i).length → SearchRound required a i (.inr (a.take i required, some i))

theorem searchStep_round (required : ℕ) (s : SlotArena × ℕ) :
    SearchRound required s.1 s.2 (searchStep required s) := by
  simp only [searchStep, Bool.not_eq_true', decide_eq_false_iff_not, not_lt, Bool.and_eq_true,
    decide_eq_true_eq]
  split_ifs with hend hused hmerge hsmall
  · exact .ended hend
  · exact .used (not_le.mp hend) hused
  · exact .merge (Bool.eq_false_of_not_eq_true hused) hmerge.1 hmerge.2
  all_goals
    simp only [Bool.not_eq_true, not_and, Bool.not_eq_false] at hused hmerge
  · exact .small (not_le.mp hend) hused hmerge hsmall
  · exact .take (not_le.mp hend) hused hmerge (not_lt.mp hsmall)

theorem mergeNext_slots_of_ne (a : SlotArena) (hk : k ≠ i) :
    (a.mergeNext i).slots k = a.slots k := by
  simp [SlotArena.mergeNext, hk]

/-- Merging a span with its successor. -/
theorem Seg.mergeNext {pre post : List Span} {s t : Span}
    (hs : Seg a.slots 0 (pre ++ s :: t :: post) n) :
    a.successor (total pre) = t ∧
      Seg (a.mergeNext (total pre)).slots 0
        (pre ++ { s with length := s.length + t.length } :: post) n := by
  have hs' := hs
  rw [seg_append, Nat.zero_add] at hs'
  rcases hs' with ⟨-, h1, hpos, h2, hpos', -⟩
  have hsucc : a.successor (total pre) = t := by
    unfold SlotArena.successor
    rw [h1]
    exact h2
  refine ⟨hsucc, ?_⟩
  have hlist : pre ++ s :: t :: post = pre ++ [s, t] ++ post := by simp
  rw [hlist] at hs
  suffices hsplice : Seg (a.mergeNext (total pre)).slots 0
      (pre ++ [{ s with length := s.length + t.length }] ++ post) n by
    simpa using hsplice
  -- two spans of the chain are replaced by one
  refine hs.splice ?_ ?_
  · refine ⟨?_, by simp only; omega, ?_⟩
    · simp [SlotArena.mergeNext, hsucc, h1]
    · simp [Seg]
  · intro k hk
    have hne : k ≠ total pre := by
      simp only [total_cons, total_nil] at hk
      omega
    exact mergeNext_slots_of_ne a hne

/-- A start before the end is the start of a span. -/
theorem IsStart.span {h : ℕ → Span} (hs : Seg h 0 l n) (hi : IsStart l i) (hlt : i < n) :
    ∃ pre post, l = pre ++ h i :: post ∧ total pre = i := by
  exact (hi.at_of_lt hs hlt).split

/-- Splicing free spans into free spans changes no used span. -/
theorem used_splice (pre mid mid' post : List Span) (htotal : total mid' = total mid)
    (hmid : ∀ s ∈ mid, s.used = false) (hmid' : ∀ s ∈ mid', s.used = false) :
    At (pre ++ mid' ++ post) k ⟨r, true⟩ ↔ At (pre ++ mid ++ post) k ⟨r, true⟩ := by
  refine at_splice htotal fun j => ?_
  exact ⟨fun h => absurd h (not_at_used hmid' j r), fun h => absurd h (not_at_used hmid j r)⟩

variable {a₀ : SlotArena} {l₀ : List Span} {s s' : SlotArena × ℕ}

section

variable (h : AtSpan a₀ l₀ s l)
include h

theorem AtSpan.skip (hlt : s.2 < slotCount) :
    AtSpan a₀ l₀ (s.1, s.2 + (s.1.slots s.2).length) l := by
  rcases IsStart.span h.seg h.position hlt with ⟨pre, post, hl, hi⟩
  refine ⟨h.base, h.cursor, h.seg, h.used, h.kept, ?_, ?_, h.data⟩
  · refine ⟨pre ++ [s.1.slots s.2], post, by simpa using hl, ?_⟩
    simp [hi]
  · have := h.ahead
    show a₀.cursor ≤ s.2 + _
    omega

theorem AtSpan.bounds (hlt : s.2 < slotCount) :
    0 < (s.1.slots s.2).length ∧ s.2 + (s.1.slots s.2).length ≤ slotCount :=
  (h.seg.at_spec (h.position.at_of_lt h.seg hlt)).2

/-- The free span at which the search stands holds no data. -/
theorem AtSpan.data_outside (hlt : s.2 < slotCount) (hfree : (s.1.slots s.2).used = false)
    (hk : InData l₀ a₀.cursor k) : k < s.2 ∨ s.2 + (s.1.slots s.2).length ≤ k := by
  rcases hk with ⟨i, r, hspan, hik, hkr, -⟩
  have hat := (h.used i r).mpr hspan
  have hself := h.position.at_of_lt h.seg hlt
  rcases Nat.lt_trichotomy i s.2 with hlt | heq | hgt
  · have hend := hat.end_le h.position hlt
    simp only at hend
    omega
  · -- the span is not used
    subst heq
    have hsame := h.seg.at_unique hat hself
    rw [← hsame] at hfree
    cases hfree
  · have hend := hself.end_le hat.isStart hgt
    omega

/-- Merging two free spans keeps the search where it is. -/
theorem AtSpan.merge (hfree : (s.1.slots s.2).used = false)
    (hlt : s.2 + (s.1.slots s.2).length < slotCount) (hsucc : (s.1.successor s.2).used = false)
    : (∃ l', AtSpan a₀ l₀ (s.1.mergeNext s.2, s.2) l') ∧
      0 < (s.1.successor s.2).length := by
  rcases IsStart.span h.seg h.position (by omega) with ⟨pre, post, hl, hi⟩
  have hend := h.seg.end_eq
  cases post with
  | nil =>
    simp only [hl, total_append, total_cons, total_nil] at hend
    omega
  | cons t post =>
    have hseg := h.seg
    rw [hl] at hseg
    rcases Seg.mergeNext hseg with ⟨ht, hmerged⟩
    rw [hi] at ht hmerged
    rw [ht] at hsucc ⊢
    refine ⟨⟨_, h.base, h.cursor, hmerged, ?_, ?_, ?_, h.ahead, ?_⟩, hseg.pos (by simp)⟩
    · -- neither the two spans nor the merged one are used
      intro k r
      rw [← h.used k r, hl]
      have hsplice := used_splice (k := k) (r := r) pre [s.1.slots s.2, t]
        [{ s.1.slots s.2 with length := (s.1.slots s.2).length + t.length }] post
        (by simp) (by simp [hfree, hsucc]) (by simp [hfree])
      simpa using hsplice
    · intro hc
      have hcursor := h.kept hc
      rw [hl] at hcursor
      have := h.ahead
      exact hcursor.of_le hseg (by omega)
    · exact ⟨pre, _, rfl, hi⟩
    · intro k hk
      have hout := h.data_outside (by omega) hfree hk
      have hpos := (h.bounds (by omega)).1
      rw [mergeNext_slots_of_ne _ (by omega)]
      exact h.data k hk

theorem AtSpan.step (hstep : searchStep required s = .inl s') :
    SearchInv a₀ l₀ required s' ∧ searchMeasure s' < searchMeasure s := by
  have hskip : s.2 < slotCount → SearchInv a₀ l₀ required (s.1, s.2 + (s.1.slots s.2).length) ∧
      searchMeasure (s.1, s.2 + (s.1.slots s.2).length) < searchMeasure s := by
    intro hlt
    have hbounds := h.bounds hlt
    refine ⟨.inl ⟨l, h.skip hlt⟩, ?_⟩
    simp only [searchMeasure]
    omega
  have hround := searchStep_round required s
  rw [hstep] at hround
  cases hround with
  | used hlt _ | small hlt _ _ _ => exact hskip hlt
  | merge hfree hlt hsucc =>
    rcases h.merge hfree hlt hsucc with ⟨⟨l', hl'⟩, hpos⟩
    have hbounds := hl'.bounds (by simp only; omega)
    refine ⟨.inl ⟨l', hl'⟩, ?_⟩
    simp only [searchMeasure, SlotArena.mergeNext, Function.update_self] at hbounds ⊢
    omega

end

/-- The cursor stands on leftover headers, so all data is before it. -/
theorem InStale.data_before {i r : ℕ} {stale : List Span} (h : InStale a₀ l₀ required s i r stale)
    (hk : InData l₀ a₀.cursor k) : k < s.2 := by
  have hend := h.seg.end_eq
  have hpos : 0 < total stale := by
    rcases List.exists_cons_of_ne_nil h.nonempty with ⟨x, rest, rfl⟩
    have hx := h.seg.2.1
    rw [total_cons]
    omega
  have hin := h.inside
  rw [h.ahead] at hin hend ⊢
  rcases hk with ⟨-, -, -, -, -, hstart | hlt⟩
  · have hle := h.span.end_le hstart hin
    simp only at hle
    omega
  · exact hlt

/-- The last leftover header leads to the end of the span. -/
theorem InStale.leave {i r : ℕ} {x : Span} (h : InStale a₀ l₀ required s i r [x])
    (hstep : searchStep required s = .inl s') :
    SearchInv a₀ l₀ required s' ∧ searchMeasure s' < searchMeasure s := by
  have hspan := h.tiled.at_spec h.span
  have hle : i + r ≤ slotCount := hspan.2.2
  rcases h.seg with ⟨hx, hpos, hnext⟩
  have hnext : s.2 + x.length = i + r := hnext
  have hunused : x.used = false := h.unused x (by simp)
  have hshort := h.short
  simp only [total_cons, total_nil, Nat.add_zero] at hshort
  have hclosed : NoFreeSuccessor s.1 s.2 := by
    unfold NoFreeSuccessor
    simp only [SlotArena.successor, hx, hnext]
    intro hlt
    rcases h.closed with heq | hused
    · omega
    · exact hused
  -- too short for the request, the header is passed
  have hs' : s' = (s.1, s.2 + x.length) := by
    have hround := searchStep_round required s
    rw [hstep] at hround
    cases hround with
    | used _ hused =>
      rw [hx, hunused] at hused
      cases hused
    | merge _ hlt hsucc =>
      rw [hclosed hlt] at hsucc
      cases hsucc
    | small => rw [hx]
  subst hs'
  refine ⟨.inl ⟨l₀, h.base, h.cursor, h.tiled, fun _ _ => Iff.rfl, fun hc => hc, ?_, ?_, h.data⟩, ?_⟩
  · rcases h.span.split with ⟨pre, post, hl, hk⟩
    exact ⟨pre ++ [⟨r, true⟩], post, by simpa using hl, by simp [hnext, hk]⟩
  · have := h.ahead
    show a₀.cursor ≤ s.2 + x.length
    omega
  · simp only [searchMeasure, hx]
    omega

/-- Two leftover headers are merged. -/
theorem InStale.merge {i r : ℕ} {x y : Span} {rest : List Span}
    (h : InStale a₀ l₀ required s i r (x :: y :: rest)) (hstep : searchStep required s = .inl s') :
    SearchInv a₀ l₀ required s' ∧ searchMeasure s' < searchMeasure s := by
  have hspan := h.tiled.at_spec h.span
  have hle : i + r ≤ slotCount := hspan.2.2
  have hend := h.seg.end_eq
  rcases h.seg with ⟨hx, hpos, hy, hpos', hrest⟩
  have hunused : x.used = false := h.unused x (by simp)
  have hyunused : y.used = false := h.unused y (by simp)
  have hsucc : s.1.successor s.2 = y := by
    unfold SlotArena.successor
    rw [hx]
    exact hy
  have hshort := h.short
  simp only [total_cons] at hend hshort
  -- the header is unused and has an unused successor: only a merge is possible
  have hs' : s' = (s.1.mergeNext s.2, s.2) := by
    have hround := searchStep_round required s
    rw [hstep] at hround
    cases hround with
    | used _ hused =>
      rw [hx, hunused] at hused
      cases hused
    | merge => rfl
    | small _ _ hclosed _ =>
      unfold NoFreeSuccessor at hclosed
      rw [hx, hsucc, hyunused] at hclosed
      have hend' := hclosed (by omega)
      cases hend'
  subst hs'
  -- the merge writes one header inside of the span
  have hself : (s.1.mergeNext s.2).slots s.2 = ⟨x.length + y.length, false⟩ := by
    simp [SlotArena.mergeNext, hsucc, hx, hunused]
  refine ⟨.inr ⟨i, r, ⟨x.length + y.length, false⟩ :: rest, h.base, h.cursor, h.ahead, ?_,
    h.span, h.inside, ?_, by simp, ?_, ?_, ?_, ?_⟩, ?_⟩
  · have hin := h.inside
    refine h.tiled.congr_inside h.span fun k hk => mergeNext_slots_of_ne _ ?_
    simp only at hk
    omega
  · refine ⟨hself, by simp only; omega, ?_⟩
    rw [← Nat.add_assoc]
    exact hrest.congr fun k hk _ => mergeNext_slots_of_ne _ (by omega)
  · intro z hz
    rcases List.mem_cons.mp hz with rfl | hz
    · rfl
    · exact h.unused z (by simp [hz])
  · simp only [total_cons]
    omega
  · rw [mergeNext_slots_of_ne _ (by omega)]
    exact h.closed
  · intro k hk
    rw [mergeNext_slots_of_ne _ (h.data_before hk).ne]
    exact h.data k hk
  · simp only [searchMeasure, hself, hx]
    omega

theorem InStale.step {i r : ℕ} {stale : List Span} (h : InStale a₀ l₀ required s i r stale)
    (hstep : searchStep required s = .inl s') :
    SearchInv a₀ l₀ required s' ∧ searchMeasure s' < searchMeasure s := by
  match stale with
  | [] => exact absurd rfl h.nonempty
  | [x] => exact h.leave hstep
  | x :: y :: rest => exact h.merge hstep

/-- Cutting the span in the middle to `required` slots. -/
theorem Seg.cut {h : ℕ → Span} {pre post : List Span} {x : Span}
    (hs : Seg h 0 (pre ++ x :: post) n) (hpos : 0 < required) (hlt : required < x.length) :
    Seg (cut h (total pre) required) 0
      (pre ++ ⟨required, x.used⟩ :: ⟨x.length - required, false⟩ :: post) n := by
  have hhead := (hs.at_spec (at_mid pre post x)).1
  have hne : total pre ≠ total pre + required := by omega
  rw [show pre ++ x :: post = pre ++ [x] ++ post by simp] at hs
  suffices hsplice : Seg (SysProg.Memory.cut h (total pre) required) 0
      (pre ++ [⟨required, x.used⟩, ⟨x.length - required, false⟩] ++ post) n by
    simpa using hsplice
  -- one span is replaced by two
  refine hs.splice ?_ ?_
  · refine ⟨?_, hpos, ?_, by simp only; omega, ?_⟩
    · simp only [SysProg.Memory.cut, Nat.zero_add, Function.update_self,
        Function.update_of_ne hne, hhead]
    · simp only [SysProg.Memory.cut, Nat.zero_add, Function.update_of_ne hne.symm,
        Function.update_self, hhead]
    · simp only [Seg, total_cons, total_nil]
      omega
  · intro k hk
    simp only [total_cons, total_nil] at hk
    have h1 : k ≠ total pre := by omega
    have h2 : k ≠ total pre + required := by omega
    simp [SysProg.Memory.cut, h1, h2]

/-- Changing the mark of the span in the middle. -/
theorem Seg.setUsed {h : ℕ → Span} {pre post : List Span} {x : Span} (used : Bool)
    (hs : Seg h 0 (pre ++ x :: post) n) :
    Seg (Function.update h (total pre) { h (total pre) with used := used }) 0
      (pre ++ { x with used := used } :: post) n := by
  have hhead := hs.at_spec (at_mid pre post x)
  rw [show pre ++ x :: post = pre ++ [x] ++ post by simp] at hs
  suffices hsplice : Seg (Function.update h (total pre) { h (total pre) with used := used }) 0
      (pre ++ [{ x with used := used }] ++ post) n by
    simpa using hsplice
  refine hs.splice ?_ ?_
  · refine ⟨?_, hhead.2.1, ?_⟩
    · simp [hhead.1]
    · simp [Seg]
  · intro k hk
    simp only [total_cons, total_nil] at hk
    have hpos := hhead.2.1
    have hne : k ≠ total pre := by omega
    simp [hne]

/-- Putting a used span in the place of free spans adds this span and nothing else. -/
theorem used_insert (pre mid rest post : List Span)
    (htotal : total mid = r + total rest) (hmid : ∀ s ∈ mid, s.used = false)
    (hrest : ∀ s ∈ rest, s.used = false) {k r' : ℕ} :
    At (pre ++ (⟨r, true⟩ :: rest) ++ post) k ⟨r', true⟩ ↔
      At (pre ++ mid ++ post) k ⟨r', true⟩ ∨ k = total pre ∧ r' = r := by
  rw [at_append_append, at_append_append, htotal]
  simp only [At, not_at_used hrest, not_at_used hmid, and_false, or_false, false_or, total_cons,
    Span.mk.injEq, and_true]
  constructor
  · rintro (h | ⟨h1, h2, rfl⟩ | h)
    · exact .inl (.inl h)
    · exact .inr ⟨by omega, rfl⟩
    · exact .inl (.inr h)
  · rintro ((h | h) | ⟨rfl, rfl⟩)
    · exact .inl h
    · exact .inr (.inr h)
    · exact .inr (.inl ⟨le_refl _, by omega, rfl⟩)

/-- Taking a span changes headers inside it only. -/
theorem take_slots_outside (hpos : 0 < required) (hle : required ≤ (a.slots i).length)
    (hk : k < i ∨ i + (a.slots i).length ≤ k) : (a.take i required).slots k = a.slots k := by
  have hki : k ≠ i := by omega
  unfold SlotArena.take
  simp only [Function.update_self]
  split
  · rename_i hgt
    have hrest : k ≠ i + required := by omega
    simp only [cut, Function.update_of_ne hki, Function.update_of_ne hrest]
  · rw [Function.update_of_ne hki]

/-- Taking the span at which the search stands. -/
theorem AtSpan.take (h : AtSpan a₀ l₀ s l) (h₀ : Seg a₀.slots 0 l₀ slotCount)
    (hlt : s.2 < slotCount) (hfree : (s.1.slots s.2).used = false)
    (hpos : 0 < required) (hle : required ≤ (s.1.slots s.2).length) :
    Served a₀ (s.1.take s.2 required) s.2 required := by
  rcases IsStart.span h.seg h.position hlt with ⟨pre, post, hl, hi⟩
  have hseg := h.seg
  rw [hl] at hseg
  have hset := Seg.setUsed true hseg
  rw [hi] at hset
  have hself : (Function.update s.1.slots s.2 { s.1.slots s.2 with used := true } s.2) =
      { s.1.slots s.2 with used := true } := Function.update_self ..
  -- what the taken span has more than the request is a free span behind it
  obtain ⟨rest, hrest, htotal, hnew⟩ : ∃ rest : List Span, (∀ x ∈ rest, x.used = false) ∧
      (s.1.slots s.2).length = required + total rest ∧
      Seg (s.1.take s.2 required).slots 0 (pre ++ (⟨required, true⟩ :: rest) ++ post) slotCount := by
    unfold SlotArena.take
    rcases Nat.lt_or_eq_of_le hle with hgt | heq
    · refine ⟨[⟨(s.1.slots s.2).length - required, false⟩], by simp, by simp; omega, ?_⟩
      simp only [hself, hgt, if_true]
      have hcut := Seg.cut hset hpos hgt
      rw [hi] at hcut
      simpa using hcut
    · refine ⟨[], by simp, by simpa using heq.symm, ?_⟩
      simp only [hself, heq, gt_iff_lt, lt_irrefl, if_false]
      simpa using hset
  have hused : ∀ k r, At (pre ++ (⟨required, true⟩ :: rest) ++ post) k ⟨r, true⟩ ↔
      At l₀ k ⟨r, true⟩ ∨ k = s.2 ∧ r = required := by
    intro k r
    rw [used_insert pre [s.1.slots s.2] rest post (by simpa using htotal) (by simp [hfree]) hrest,
      hi, ← h.used k r, hl]
    simp
  refine ⟨h.base, ⟨_, hnew⟩, ?_, ?_, ?_, ?_⟩
  · rw [cursorOk_iff hnew]
    exact ⟨pre ++ [⟨required, true⟩], rest ++ post, by simp, by simp [SlotArena.take, hi]⟩
  · intro k r
    rw [usedSpan_iff hnew, usedSpan_iff h₀]
    exact hused k r
  · intro r hr
    rw [usedSpan_iff h₀, ← h.used] at hr
    have hat := (h.seg.at_spec hr).1
    rw [hat] at hfree
    simp at hfree
  · intro k hk
    rw [dataSlot_iff h₀] at hk
    have hout := h.data_outside hlt hfree hk
    rw [take_slots_outside hpos hle hout]
    exact h.data k hk

theorem search_done (h₀ : Seg a₀.slots 0 l₀ slotCount) (hpos : 0 < required)
    {res : SlotArena × Option ℕ} (hinv : SearchInv a₀ l₀ required s)
    (hstep : searchStep required s = .inr res) : SearchPost a₀ required res := by
  have hround := searchStep_round required s
  rw [hstep] at hround
  rcases hinv with ⟨l, h⟩ | ⟨i, r, stale, h⟩
  · cases hround with
    | ended =>
      refine ⟨h.base, h.cursor, ⟨l, h.seg⟩, ?_, ?_, fun k hk => h.data k ((dataSlot_iff h₀).mp hk)⟩
      · intro k r
        rw [usedSpan_iff h.seg, usedSpan_iff h₀]
        exact h.used k r
      · intro hc
        rw [cursorOk_iff h₀] at hc
        rw [cursorOk_iff h.seg, h.cursor]
        exact h.kept hc
    | take hlt hfree _ hle => exact h.take h₀ hlt hfree hpos hle
  · -- leftover headers are shorter than the request
    exfalso
    have hspan := h.tiled.at_spec h.span
    have hend := h.seg.end_eq
    have hin := h.inside
    have hle : i + r ≤ slotCount := hspan.2.2
    cases hst : stale with
    | nil => exact h.nonempty hst
    | cons x rest =>
      have hseg := h.seg
      rw [hst] at hseg hend
      rcases hseg with ⟨hx, hxpos, -⟩
      have hshort := h.short
      simp only [hst, total_cons] at hshort hend
      cases hround with
      | ended hge => omega
      | take _ _ _ hlarge =>
        rw [hx] at hlarge
        omega

/-- What a search does to an arena, from a good or a stale cursor. -/
theorem search_spec (ht : Tiled a) (hpos : 0 < required)
    (hcursor : CursorOk a ∨ ∃ i r stale, StaleCursor a required i r stale) :
    ∃ res, searchArena a required = some res ∧ SearchPost a required res := by
  rcases ht with ⟨l, hs⟩
  refine Loop.run_of_measure (SearchInv a l required) (SearchPost a required) searchMeasure
    ?_ (fun s r => search_done hs hpos) ?_ ?_
  · intro s s' hinv hstep
    rcases hinv with ⟨l', h⟩ | ⟨i, r, stale, h⟩
    · exact h.step hstep
    · exact h.step hstep
  · rcases hcursor with hc | ⟨i, r, stale, h⟩
    · rw [cursorOk_iff hs] at hc
      exact .inl ⟨l, rfl, rfl, hs, fun _ _ => Iff.rfl, fun hc => hc, hc, le_refl _, fun _ _ => rfl⟩
    · exact .inr ⟨i, r, stale, rfl, rfl, rfl, hs, (usedSpan_iff hs).mp h.span, h.inside, h.seg,
        h.nonempty, h.unused, h.short, h.closed, fun _ _ => rfl⟩
  · have hcount : slotCount = 248 := rfl
    simp only [searchMeasure, searchFuel]
    omega

/-- The longest run of free slots behind the cursor. -/
def SlotArena.room (a : SlotArena) : ℕ :=
  Spans.room (follow a.slots slotCount slotCount a.cursor)

theorem room_eq (hs : Seg a.slots a.cursor l slotCount) : a.room = Spans.room l := by
  have hend := hs.end_eq
  have hlen := hs.length_le
  unfold SlotArena.room
  rw [hs.follow_eq (by omega)]

/-- A step of the search leaves the room ahead of it as it is. -/
theorem searchStep_room {s s' : SlotArena × ℕ} (hs : Seg s.1.slots s.2 l slotCount)
    (hstep : searchStep required s = .inl s') :
    ∃ l', Seg s'.1.slots s'.2 l' slotCount ∧
      (required ≤ Spans.room l' ↔ required ≤ Spans.room l) := by
  have hend := hs.end_eq
  have hround := searchStep_round required s
  rw [hstep] at hround
  cases l with
  | nil =>
    -- the search is over
    simp only [total_nil, Nat.add_zero] at hend
    cases hround with
    | used hlt _ | merge _ hlt _ | small hlt _ _ _ => omega
  | cons x rest =>
    rcases hs with ⟨hx, hpos, hrest⟩
    cases hround with
    | used _ hused =>
      rw [hx] at hused ⊢
      exact ⟨rest, hrest, by rw [room_of_used hused]⟩
    | merge hfree hlt hsucc =>
      rw [hx] at hfree hlt
      simp only [SlotArena.successor, hx] at hsucc
      cases rest with
      | nil =>
        have hlast : s.2 + x.length = slotCount := hrest
        omega
      | cons y rest =>
        rcases hrest with ⟨hy, hpos', hrest⟩
        rw [hy] at hsucc
        refine ⟨{ x with length := x.length + y.length } :: rest, ⟨?_, ?_, ?_⟩, ?_⟩
        · simp [SlotArena.mergeNext, SlotArena.successor, hx, hy]
        · simp only
          omega
        · rw [← Nat.add_assoc]
          exact hrest.congr fun k hk _ => mergeNext_slots_of_ne _ (by omega)
        · rw [room_merge hfree hsucc]
    | small _ hfree hclosed hsmall =>
      unfold NoFreeSuccessor at hclosed
      rw [hx] at hfree hclosed hsmall ⊢
      refine ⟨rest, hrest, ?_⟩
      have hleading : leading rest = 0 := by
        cases rest with
        | nil => rfl
        | cons y rest =>
          rcases hrest with ⟨hy, hpos', hrest⟩
          have hend' := hrest.end_eq
          simp only [SlotArena.successor, hx, hy] at hclosed
          exact leading_of_used (hclosed (by omega))
      rw [room_of_closed hfree hleading]
      omega

/-- The search finds a span exactly when there is room for it behind the cursor. -/
theorem search_found_iff (hs : Seg a.slots a.cursor l slotCount) (hpos : 0 < required)
    {res : SlotArena × Option ℕ} (hrun : searchArena a required = some res) :
    res.2.isSome = true ↔ required ≤ a.room := by
  rw [room_eq hs]
  refine Loop.run_post
    (fun s => ∃ l', Seg s.1.slots s.2 l' slotCount ∧
      (required ≤ Spans.room l' ↔ required ≤ Spans.room l))
    (fun res => res.2.isSome = true ↔ required ≤ Spans.room l) ?_ ?_ ⟨l, hs, Iff.rfl⟩ hrun
  · intro s s' hinv hstep
    rcases hinv with ⟨l', hs', hroom⟩
    rcases searchStep_room hs' hstep with ⟨l'', hs'', hroom'⟩
    exact ⟨l'', hs'', hroom'.trans hroom⟩
  · intro s res hinv hstep
    rcases hinv with ⟨l', hs', hroom⟩
    rw [← hroom]
    have hend := hs'.end_eq
    have hround := searchStep_round required s
    rw [hstep] at hround
    cases hround with
    -- at the end there is no room left
    | ended hge =>
      cases l' with
      | nil =>
        simp only [Option.isSome_none, Bool.false_eq_true, Spans.room, false_iff]
        omega
      | cons x rest =>
        have hx := hs'.2.1
        simp only [total_cons] at hend
        omega
    -- the span that is taken is the room
    | take hlt hfree _ hlarge =>
      cases l' with
      | nil =>
        simp only [total_nil, Nat.add_zero] at hend
        omega
      | cons x rest =>
        rcases hs' with ⟨hx, -, -⟩
        rw [hx] at hfree hlarge
        have hle := le_room_of_free (l := rest) hfree
        simp only [Option.isSome_some, true_iff]
        omega

/-- The slot lies in no used span. -/
def FreeSlot (a : SlotArena) (j : ℕ) : Prop :=
  j < slotCount ∧ ∀ k r, UsedSpan a k r → ¬ (k ≤ j ∧ j < k + r)

/-- The room behind the cursor, in terms of free slots. -/
theorem le_room_iff_free (ht : Tiled a) (hc : CursorOk a) (hpos : 0 < required) :
    required ≤ a.room ↔
      ∃ k, a.cursor ≤ k ∧ ∀ j, k ≤ j → j < k + required → FreeSlot a j := by
  rcases ht with ⟨l, hs⟩
  have hcell : ∀ j, FreeSlot a j ↔ FreeCell l j := by
    intro j
    have hend := hs.end_eq
    rw [freeCell_iff hs, FreeSlot]
    simp only [usedSpan_iff hs, hend, Nat.zero_add]
  -- the spans behind the cursor count
  rcases (cursorOk_iff hs).mp hc with ⟨pre, post, rfl, hcursor⟩
  have hpost : Seg a.slots a.cursor post slotCount := by
    rw [seg_append, Nat.zero_add, hcursor] at hs
    exact hs.2
  rw [room_eq hpost, le_room_iff hpost hpos]
  simp only [hcell]
  constructor
  · intro hfree
    rcases hfree with ⟨k, hk⟩
    refine ⟨a.cursor + k, Nat.le_add_right _ _, fun j h1 h2 => ?_⟩
    rw [freeCell_append (by omega), hcursor]
    exact hk _ (by omega) (by omega)
  · intro hfree
    rcases hfree with ⟨k, hle, hk⟩
    refine ⟨k - a.cursor, fun j h1 h2 => ?_⟩
    have hcell' := hk (a.cursor + j) (by omega) (by omega)
    rwa [freeCell_append (by omega), hcursor, Nat.add_sub_cancel_left] at hcell'

/-! ## Changes of one span -/

/-- The arena with the headers inside a used span changed, as by a user's write. -/
structure Overwritten (a b : SlotArena) (i r : ℕ) : Prop where
  base : b.base = a.base
  cursor : b.cursor = a.cursor
  slots : ∀ k, k ≤ i ∨ i + r ≤ k → b.slots k = a.slots k

/-- Writes inside a used span change neither the spans nor the state of the cursor. -/
theorem Overwritten.spec (h : Overwritten a b i r) (ht : Tiled a) (hu : UsedSpan a i r) :
    Tiled b ∧ (∀ k r', UsedSpan b k r' ↔ UsedSpan a k r') ∧ (CursorOk b ↔ CursorOk a) := by
  rcases ht with ⟨l, hs⟩
  have hs' : Seg b.slots 0 l slotCount :=
    hs.congr_inside ((usedSpan_iff hs).mp hu) fun k hk => h.slots k hk
  refine ⟨⟨l, hs'⟩, fun k r' => ?_, ?_⟩
  · rw [usedSpan_iff hs, usedSpan_iff hs']
  · rw [cursorOk_iff hs, cursorOk_iff hs', h.cursor]

/-- Marking a used span as unused removes it from the used spans. -/
theorem markUnused_spec (ht : Tiled a) (hu : UsedSpan a i r) :
    Tiled (a.markUnused i) ∧
      (∀ k r', UsedSpan (a.markUnused i) k r' ↔ UsedSpan a k r' ∧ k ≠ i) ∧
      ∀ c, Start (a.markUnused i).slots slotCount c ↔ Start a.slots slotCount c := by
  rcases ht with ⟨l, hs⟩
  rcases ((usedSpan_iff hs).mp hu).split with ⟨pre, post, rfl, rfl⟩
  have hs' : Seg (a.markUnused (total pre)).slots 0 (pre ++ ⟨r, false⟩ :: post) slotCount :=
    Seg.setUsed false hs
  -- the lengths stay, and with them the starts
  have hlen : (pre ++ ⟨r, false⟩ :: post).map Span.length =
      (pre ++ ⟨r, true⟩ :: post).map Span.length := by simp
  refine ⟨⟨_, hs'⟩, fun k r' => ?_, fun c => ?_⟩
  · have hinsert : At (pre ++ [⟨r, true⟩] ++ post) k ⟨r', true⟩ ↔
        At (pre ++ [⟨r, false⟩] ++ post) k ⟨r', true⟩ ∨ k = total pre ∧ r' = r :=
      used_insert pre [⟨r, false⟩] [] post (by simp) (by simp) (by simp)
    simp only [List.append_assoc, List.cons_append, List.nil_append] at hinsert
    rw [usedSpan_iff hs', usedSpan_iff hs, hinsert]
    constructor
    · intro hat
      refine ⟨.inl hat, fun hk => ?_⟩
      have heq := hs'.at_unique (hk ▸ hat) (at_mid pre post ⟨r, false⟩)
      simp at heq
    · intro hat
      exact hat.1.resolve_right fun heq => hat.2 heq.1
  · rw [hs'.start_iff (by decide), hs.start_iff (by decide), isStart_congr hlen]

/-- `slot_allocator_deallocate` inside an arena. -/
theorem free_spec (ht : Tiled a) (hc : CursorOk a) (hu : UsedSpan a i r) :
    Tiled (a.free i) ∧ CursorOk (a.free i) ∧
      ∀ k r', UsedSpan (a.free i) k r' ↔ UsedSpan a k r' ∧ k ≠ i := by
  rcases markUnused_spec ht hu with ⟨htiled, hused, hstart⟩
  refine ⟨htiled, ?_, hused⟩
  by_cases hlt : i < a.cursor
  · refine .inl ((hstart _).mpr ?_)
    simp only [SlotArena.free, if_pos hlt]
    exact hu.1
  · rcases hc with hc | hc
    · refine .inl ((hstart _).mpr ?_)
      simpa only [SlotArena.free, if_neg hlt] using hc
    · refine .inr ?_
      simpa only [SlotArena.free, if_neg hlt] using hc

/-- The used span at `i` now has `len` slots; the other used spans are the same. -/
structure Resized (a b : SlotArena) (i len : ℕ) : Prop where
  base : b.base = a.base
  tiled : Tiled b
  span : UsedSpan b i len
  others : ∀ k r, k ≠ i → (UsedSpan b k r ↔ UsedSpan a k r)

theorem Resized.refl (ht : Tiled a) (hu : UsedSpan a i r) : Resized a a i r :=
  ⟨rfl, ht, hu, fun _ _ _ => Iff.rfl⟩

/-- A used span and the free spans behind it, divided in another way. -/
theorem resized_of_splice (pre rest rest' post : List Span) {len len' : ℕ}
    (hs : Seg a.slots 0 (pre ++ (⟨len, true⟩ :: rest) ++ post) slotCount)
    (hs' : Seg b.slots 0 (pre ++ (⟨len', true⟩ :: rest') ++ post) slotCount)
    (hbase : b.base = a.base) (htotal : len + total rest = len' + total rest')
    (hrest : ∀ s ∈ rest, s.used = false) (hrest' : ∀ s ∈ rest', s.used = false) :
    Resized a b (total pre) len' := by
  refine ⟨hbase, ⟨_, hs'⟩, ?_, fun k r hk => ?_⟩
  · rw [usedSpan_iff hs', List.append_assoc]
    exact at_mid pre _ _
  · -- both are the same row of free spans with one used span put in
    rw [usedSpan_iff hs, usedSpan_iff hs',
      used_insert pre [⟨len + total rest, false⟩] rest post (by simp) (by simp) hrest,
      used_insert pre [⟨len + total rest, false⟩] rest' post (by simpa using htotal) (by simp) hrest']
    simp [hk]

end SysProg.Memory
