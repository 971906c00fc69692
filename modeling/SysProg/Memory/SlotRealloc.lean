import Mathlib.Tactic
import SysProg.Memory.SlotHeap

/-!
# Reallocation in the slot allocator

`slot_allocator_reallocate` first extends the span over the free spans behind it
(`expand_spec`). If that is enough the span is trimmed and the cursor is set behind it.
If not, the data moves to a new span and the old one is released, extended as it is.
The cursor of the arena may have pointed at one of the spans that are gone now; it is
only set right when the new span is taken from the same arena.

* `reallocate_inPlace` — the span was large enough;
* `reallocate_moved` — the data moved: what holds of the spans, and when all cursors
  are still in place;
* `overrunsCursor` — when that is not so, in terms of the state before the call.
-/

namespace SysProg.Memory

open Spans

variable {kernel : Kernel} {heap heap' heap₁ heap₂ : SlotHeap} {a b c : SlotArena}
  {p q r i j k len index required size index' rounds : ℕ}

/-! ## Extending a span -/

theorem Resized.trans {len' : ℕ} (h : Resized a b i len) (h' : Resized b c i len') :
    Resized a c i len' :=
  ⟨h'.base.trans h.base, h'.tiled, h'.span,
    fun k r hk => (h'.others k r hk).trans (h.others k r hk)⟩

/-- The leftover headers from the cursor to the end of the span at `i`. -/
structure Leftover (b : SlotArena) (i len : ℕ) (stale : List Span) : Prop where
  inside : i < b.cursor
  seg : Seg b.slots b.cursor stale (i + len)
  nonempty : stale ≠ []
  unused : ∀ s ∈ stale, s.used = false

/-- The cursor is in place, or it was run over by the span at `i`. -/
def CursorOkOr (b : SlotArena) (i len : ℕ) : Prop :=
  CursorOk b ∨ ∃ stale, Leftover b i len stale

theorem Leftover.lt {stale : List Span} (h : Leftover b i len stale) : b.cursor < i + len := by
  have hend := h.seg.end_eq
  cases hst : stale with
  | nil => exact absurd hst h.nonempty
  | cons s rest =>
    have hpos := h.seg.pos (t := s) (by simp [hst])
    simp only [hst, total_cons] at hend
    omega

/-- A cursor inside a span is not in place. -/
theorem not_cursorOk_of_inside (ht : Tiled b) (hu : UsedSpan b i len) (h1 : i < b.cursor)
    (h2 : b.cursor < i + len) : ¬ CursorOk b := by
  rcases ht with ⟨l, hs⟩
  rw [cursorOk_iff hs]
  exact ((usedSpan_iff hs).mp hu).not_inside h1 h2

/-- After the extension the cursor is in place exactly when it is not inside the span. -/
theorem CursorOkOr.iff (h : CursorOkOr b i len) (ht : Tiled b) (hu : UsedSpan b i len) :
    CursorOk b ↔ ¬ (i < b.cursor ∧ b.cursor < i + len) := by
  constructor
  · intro hok hin
    exact not_cursorOk_of_inside ht hu hin.1 hin.2 hok
  · intro hout
    rcases h with hok | ⟨stale, hstale⟩
    · exact hok
    · exact absurd ⟨hstale.inside, hstale.lt⟩ hout

/-- The cursor after one step of the extension, over the free span `t`. -/
theorem CursorOkOr.mergeNext {pre post : List Span} {t : Span}
    (hc : CursorOkOr b (total pre) len)
    (hs : Seg b.slots 0 (pre ++ ⟨len, true⟩ :: t :: post) slotCount)
    (hmerged : Seg (b.mergeNext (total pre)).slots 0 (pre ++ ⟨len + t.length, true⟩ :: post)
      slotCount)
    (ht : b.slots (total pre + len) = t) (hfree : t.used = false) :
    CursorOkOr (b.mergeNext (total pre)) (total pre) (len + t.length) := by
  have hlen : 0 < len := hs.pos (t := ⟨len, true⟩) (by simp)
  have hpos : 0 < t.length := hs.pos (t := t) (by simp)
  have hcursor : (b.mergeNext (total pre)).cursor = b.cursor := rfl
  -- the header of the free span stays behind
  have hleft : (b.mergeNext (total pre)).slots (total pre + len) = t := by
    rw [mergeNext_slots_of_ne _ (by omega)]
    exact ht
  rcases hc with hc | ⟨stale, hstale⟩
  · rw [cursorOk_iff hs] at hc
    unfold CursorOkOr
    rw [cursorOk_iff hmerged, hcursor]
    rcases Nat.lt_or_ge (total pre) b.cursor with hbehind | hbefore
    · have hge : total pre + len ≤ b.cursor :=
        (at_mid pre (t :: post) ⟨len, true⟩).end_le hc hbehind
      rcases Nat.lt_or_eq_of_le hge with hgt | heq
      · -- behind the successor
        have hat : At (pre ++ ⟨len, true⟩ :: t :: post) (total pre + len) t := by
          have := at_mid (pre ++ [⟨len, true⟩]) post t
          simpa using this
        have hfar := hat.end_le hc hgt
        left
        have hlist : pre ++ ⟨len, true⟩ :: t :: post = (pre ++ [⟨len, true⟩, t]) ++ post := by simp
        have hmove := IsStart.of_ge (pre ++ [⟨len + t.length, true⟩]) (hlist ▸ hs)
          (hlist ▸ hc) (by simp; omega) (by simp)
        simpa using hmove
      · -- on the successor: its header is left over
        right
        refine ⟨[t], by rw [hcursor]; exact hbehind, ?_, by simp, by simpa using hfree⟩
        rw [hcursor, ← heq]
        refine ⟨hleft, hpos, ?_⟩
        simp only [Seg]
        omega
    · left
      exact hc.of_le hs hbefore
  · right
    have hin := hstale.inside
    refine ⟨stale ++ [t], by rw [hcursor]; exact hin, ?_, by simp, ?_⟩
    · have hend := hstale.seg.end_eq
      rw [hcursor, seg_append, ← hend]
      refine ⟨hstale.seg.congr fun k hk _ => mergeNext_slots_of_ne _ (by omega), hleft, hpos, ?_⟩
      simp only [Seg]
      omega
    · intro s hmem
      rcases List.mem_append.mp hmem with hmem | hmem
      · exact hstale.unused s hmem
      · rw [List.mem_singleton.mp hmem]
        exact hfree

/-- One step of the extension. -/
theorem mergeNext_resized (hr : Resized a b i len) (hc : CursorOkOr b i len)
    (hlt : i + len < slotCount) (hfree : (b.successor i).used = false) :
    ∃ len', len < len' ∧ Resized a (b.mergeNext i) i len' ∧
      CursorOkOr (b.mergeNext i) i len' := by
  rcases hr.tiled with ⟨l, hs⟩
  rcases ((usedSpan_iff hs).mp hr.span).split with ⟨pre, post, rfl, rfl⟩
  cases post with
  | nil =>
    have hend := hs.end_eq
    simp only [total_append, total_cons, total_nil] at hend
    omega
  | cons t post =>
    rcases Seg.mergeNext hs with ⟨ht, hmerged⟩
    rw [ht] at hfree
    have hpos : 0 < t.length := hs.pos (t := t) (by simp)
    have hhead := (hs.at_spec (at_mid pre (t :: post) ⟨len, true⟩)).1
    have htspec : b.slots (total pre + len) = t := by
      unfold SlotArena.successor at ht
      rwa [hhead] at ht
    -- the successor becomes part of the span
    have hresized : Resized b (b.mergeNext (total pre)) (total pre) (len + t.length) := by
      have hold : Seg b.slots 0 (pre ++ (⟨len, true⟩ :: [t]) ++ post) slotCount := by
        simpa using hs
      refine resized_of_splice pre [t] [] post hold ?_ rfl ?_ ?_ ?_
      · simpa using hmerged
      · simp
      · simpa using hfree
      · simp
    exact ⟨len + t.length, by omega, hr.trans hresized, hc.mergeNext hs hmerged htspec hfree⟩

/-- A free span follows the span at `i`. -/
def SlotArena.freeFollows (a : SlotArena) (i : ℕ) : Bool :=
  i + (a.slots i).length < slotCount && !(a.successor i).used

/-- The span of `r` slots at `i` after the merging loop. -/
structure Expanded (a b : SlotArena) (i r required len : ℕ) : Prop where
  resized : Resized a b i len
  origin : b = a ∧ len = r ∨ r < len ∧ a.freeFollows i = true
  cursor : b.cursor = a.cursor
  cursorOkOr : CursorOkOr b i len
  stop : i + len = slotCount ∨ (b.slots (i + len)).used = true ∨ required < len

theorem usedSpan_length (hu : UsedSpan a i r) : (a.slots i).length = r := by
  rw [hu.2]

/-- The loop goes on while a free span follows and the span is not longer than required. -/
theorem expandStep_inl {c c' : SlotArena} (h : expandStep i required c = .inl c') :
    c' = c.mergeNext i ∧ i + (c.slots i).length < slotCount ∧ (c.successor i).used = false := by
  unfold expandStep at h
  simp only at h
  split at h
  · rename_i hcont
    simp only [Bool.and_eq_true, decide_eq_true_eq, Bool.not_eq_true'] at hcont
    exact ⟨(Sum.inl.inj h).symm, hcont.1⟩
  · cases h

theorem expandStep_inr {c c' : SlotArena} (h : expandStep i required c = .inr c') :
    c' = c ∧ (i + (c.slots i).length < slotCount → (c.successor i).used = false →
      required < (c.slots i).length) := by
  unfold expandStep at h
  simp only at h
  split at h
  · cases h
  · rename_i hstop
    simp only [Bool.and_eq_true, decide_eq_true_eq, Bool.not_eq_true', not_and, not_le] at hstop
    exact ⟨(Sum.inr.inj h).symm, fun hlt hfree => hstop ⟨hlt, hfree⟩⟩

/-- What the merging loop keeps: the span at `i` has grown by the free ones behind it. -/
def Merging (a : SlotArena) (i r : ℕ) (b : SlotArena) : Prop :=
  ∃ len, Resized a b i len ∧ (b = a ∧ len = r ∨ r < len ∧ a.freeFollows i = true) ∧
    b.cursor = a.cursor ∧ CursorOkOr b i len

theorem Merging.step {b' : SlotArena} (h : Merging a i r b)
    (hstep : expandStep i required b = .inl b') :
    Merging a i r b' ∧ slotCount - (b'.slots i).length < slotCount - (b.slots i).length := by
  rcases h with ⟨len, hr, horigin, hcur, hok⟩
  have hlen := usedSpan_length hr.span
  rcases expandStep_inl hstep with ⟨rfl, hlt, hfree⟩
  rcases mergeNext_resized hr hok (hlen ▸ hlt) hfree with ⟨len', hlonger, hr', hok'⟩
  refine ⟨⟨len', hr', .inr ?_, hcur, hok'⟩, ?_⟩
  · rcases horigin with ⟨rfl, rfl⟩ | ⟨hgrew, hfollows⟩
    · -- the first merge
      refine ⟨hlonger, ?_⟩
      simp [SlotArena.freeFollows, hlt, hfree]
    · exact ⟨hgrew.trans hlonger, hfollows⟩
  · have hlen' := usedSpan_length hr'.span
    have hbounds' := hr'.span.bounds hr'.tiled
    simp only [hlen, hlen']
    omega

theorem Merging.done {b' : SlotArena} (h : Merging a i r b)
    (hstep : expandStep i required b = .inr b') : ∃ len, Expanded a b' i r required len := by
  rcases h with ⟨len, hr, horigin, hcur, hok⟩
  have hlen := usedSpan_length hr.span
  have hbounds := hr.span.bounds hr.tiled
  rcases expandStep_inr hstep with ⟨rfl, hstop⟩
  rw [SlotArena.successor, hlen] at hstop
  refine ⟨len, hr, horigin, hcur, hok, ?_⟩
  rcases Nat.lt_or_eq_of_le hbounds.2 with hlt | heq
  · right
    by_cases hused : (b'.slots (i + len)).used = true
    · exact .inl hused
    · exact .inr (hstop hlt (by simpa using hused))
  · exact .inl heq

theorem expand_spec (required : ℕ) (ht : Tiled a) (hc : CursorOk a) (hu : UsedSpan a i r) :
    ∃ b, Loop.run (expandStep i required) (slotCount + 1) a = some b ∧
      ∃ len, Expanded a b i r required len := by
  refine Loop.run_of_measure (Merging a i r) (fun b => ∃ len, Expanded a b i r required len)
    (fun b => slotCount - (b.slots i).length) ?_ ?_
    ⟨r, Resized.refl ht hu, .inl ⟨rfl, rfl⟩, rfl, .inl hc⟩ ?_
  · intro b b' hinv hstep
    exact hinv.step hstep
  · intro b b' hinv hstep
    exact hinv.done hstep
  · omega

/-- A span that stays too short has grown exactly when a free one follows it. -/
theorem Expanded.grew_iff (h : Expanded a b i r required len) (hu : UsedSpan a i r)
    (hshort : len < required) : r < len ↔ a.freeFollows i = true := by
  rcases h.origin with ⟨rfl, rfl⟩ | ⟨hgrew, hfollows⟩
  · have hno : b.freeFollows i = false := by
      unfold SlotArena.freeFollows SlotArena.successor
      rw [usedSpan_length hu]
      rcases h.stop with hend | hused | hlong
      · simp [hend]
      · simp [hused]
      · omega
    simp [hno]
  · simp [hgrew, hfollows]

/-- The free slots directly behind the span at `i`. -/
def SlotArena.freeBehind (a : SlotArena) (i : ℕ) : ℕ :=
  leading (follow a.slots slotCount slotCount (i + (a.slots i).length))

/-- During the merging loop: only the header of the span has been written to, and the span and
the free slots behind it are `free` slots together. -/
structure Expanding (a : SlotArena) (i free : ℕ) (c : SlotArena) : Prop where
  outside : ∀ k, k ≠ i → c.slots k = a.slots k
  pos : 0 < (c.slots i).length
  behind : ∃ l, Seg a.slots (i + (c.slots i).length) l slotCount ∧
    (c.slots i).length + leading l = free

theorem Expanding.next {c c' : SlotArena} {free : ℕ} (h : Expanding a i free c)
    (hstep : expandStep i required c = .inl c') : Expanding a i free c' := by
  rcases h with ⟨hout, hpos, l, hseg, htotal⟩
  rcases expandStep_inl hstep with ⟨rfl, hlt, hfree⟩
  have hnext := hout (i + (c.slots i).length) (by omega)
  cases l with
  | nil =>
    have hend : i + (c.slots i).length = slotCount := hseg
    omega
  | cons y rest =>
    rcases hseg with ⟨hy, -, hrest⟩
    rw [SlotArena.successor, hnext, hy] at hfree
    have hmerged : ((c.mergeNext i).slots i).length = (c.slots i).length + y.length := by
      simp [SlotArena.mergeNext, SlotArena.successor, hnext, hy]
    rw [leading_of_free hfree] at htotal
    refine ⟨fun k hk => (mergeNext_slots_of_ne c hk).trans (hout k hk), by omega, rest, ?_, ?_⟩
    · rw [hmerged, ← Nat.add_assoc]
      exact hrest
    · omega

theorem Expanding.done {c : SlotArena} {free : ℕ} (h : Expanding a i free c)
    (hstep : expandStep i required c = .inr b) :
    (∀ k, k ≠ i → b.slots k = a.slots k) ∧
      ((b.slots i).length = free ∨ required < (b.slots i).length ∧ (b.slots i).length ≤ free) := by
  rcases h with ⟨hout, hpos, l, hseg, htotal⟩
  rcases expandStep_inr hstep with ⟨rfl, hstop⟩
  refine ⟨hout, ?_⟩
  by_cases hlong : required < (b.slots i).length
  · exact .inr ⟨hlong, by omega⟩
  · -- the loop has not stopped because of the length
    left
    have hleading : leading l = 0 := by
      cases l with
      | nil => rfl
      | cons y rest =>
        have hend := hseg.end_eq
        rcases hseg with ⟨hy, hypos, -⟩
        simp only [total_cons] at hend
        have hnext := hout (i + (b.slots i).length) (by omega)
        rw [SlotArena.successor, hnext, hy] at hstop
        apply leading_of_used
        by_contra hfree
        exact hlong (hstop (by omega) (by simpa using hfree))
    omega

/-- The merging loop writes to one header only. It takes all the free slots behind the span,
or more than it needs. -/
theorem expand_total {l : List Span} (hu : UsedSpan a i r) (hpos : 0 < r)
    (hs : Seg a.slots (i + r) l slotCount)
    (hrun : Loop.run (expandStep i required) rounds a = some b) :
    (∀ k, k ≠ i → b.slots k = a.slots k) ∧
      ((b.slots i).length = r + leading l ∨
        required < (b.slots i).length ∧ (b.slots i).length ≤ r + leading l) := by
  have hlen := usedSpan_length hu
  have hstart : Expanding a i (r + leading l) a :=
    ⟨fun _ _ => rfl, by omega, l, by rw [hlen]; exact hs, by rw [hlen]⟩
  exact Loop.run_post (Expanding a i (r + leading l)) _ (fun c c' h hstep => h.next hstep)
    (fun c c' h hstep => h.done hstep) hstart hrun

theorem trim_length (hle : required ≤ (b.slots i).length) :
    ((b.trim i required).slots i).length = required := by
  unfold SlotArena.trim
  split
  · simp [cut]
  · omega

theorem trim_base (b : SlotArena) (i required : ℕ) : (b.trim i required).base = b.base := by
  unfold SlotArena.trim
  split <;> rfl

/-- A span that is long enough is trimmed, and the cursor is set behind it. -/
theorem trim_spec (hr : Resized a b i len) (hpos : 0 < required) (hle : required ≤ len) :
    Resized a { b.trim i required with cursor := i + required } i required ∧
      CursorOk { b.trim i required with cursor := i + required } := by
  have hlen := usedSpan_length hr.span
  rcases hr.tiled with ⟨l, hs⟩
  rcases ((usedSpan_iff hs).mp hr.span).split with ⟨pre, post, rfl, rfl⟩
  obtain ⟨rest, hrest, htotal, hnew⟩ : ∃ rest : List Span, (∀ x ∈ rest, x.used = false) ∧
      len = required + total rest ∧
      Seg (b.trim (total pre) required).slots 0
        (pre ++ (⟨required, true⟩ :: rest) ++ post) slotCount := by
    unfold SlotArena.trim
    rw [hlen]
    -- the slots that are left over become an unused span
    rcases Nat.lt_or_eq_of_le hle with hgt | heq
    · refine ⟨[⟨len - required, false⟩], by simp, by simp; omega, ?_⟩
      rw [if_pos hgt]
      simpa using Seg.cut hs hpos hgt
    · refine ⟨[], by simp, by simpa using heq.symm, ?_⟩
      rw [if_neg (by omega), heq]
      simpa using hs
  have hbase := trim_base b (total pre) required
  constructor
  · have hold : Seg b.slots 0 (pre ++ (⟨len, true⟩ :: []) ++ post) slotCount := by
      simpa using hs
    exact hr.trans (resized_of_splice pre [] rest post hold hnew hbase (by simpa using htotal)
      (by simp) hrest)
  · rw [cursorOk_iff (a := { b.trim (total pre) required with cursor := total pre + required }) hnew]
    exact ⟨pre ++ [⟨required, true⟩], rest ++ post, by simp, by simp⟩

/-! ## The whole call -/

/-- The call will strand the cursor of the arena of `pointer`: the block and the free slots
behind it are together too short, so that they are merged in vain, the cursor is on one of
these free slots, and the first arena with room for the request is another one. -/
def overrunsCursor (heap : SlotHeap) (pointer size : ℕ) : Bool :=
  match findArena heap pointer with
  | none => false
  | some index =>
      match heap.arenas[index]? with
      | none => false
      | some a =>
          let i := slotToIndex a.base pointer
          let length := (a.slots i).length + a.freeBehind i
          length < requiredSlots size && i < a.cursor && a.cursor < i + length &&
            firstRoom heap (requiredSlots size) ≠ some index

/-- A free span follows the block at `pointer`. -/
def freeFollows (heap : SlotHeap) (pointer : ℕ) : Bool :=
  match (findArena heap pointer).bind (heap.arenas[·]?) with
  | none => false
  | some a => a.freeFollows (slotToIndex a.base pointer)

/-- What a reallocation of the block at `p` does to the spans. -/
structure SlotReallocated (kernel : Kernel) (heap heap' : SlotHeap) (p q required : ℕ) : Prop where
  bases : ArenasOk heap'.bases heap'.os
  grown : Grown kernel (arenaRegion heap.bases) heap.os (arenaRegion heap'.bases) heap'.os
  tiled : ∀ c ∈ heap'.arenas, Tiled c
  nonzero : q ≠ 0
  used : ∀ x r, heap'.Used x r ↔ x ≠ p ∧ heap.Used x r ∨ x = q ∧ r = required
  fresh : q ≠ p → ∀ r, ¬ heap.Used q r

theorem slotPointer_ne_zero (base k : ℕ) : slotPointer base k ≠ 0 := by
  simp [slotPointer]

/-- The span was large enough, or became so. -/
theorem reallocate_inPlace (kernel : Kernel) (h : SlotOk heap) (ha : heap.arenas[index]? = some a)
    (hlt : i < slotCount) (hr : Resized a c i required) (hc : CursorOk c) :
    SlotReallocated kernel heap (heap.modify index fun _ => c) (slotPointer a.base i)
        (slotPointer a.base i) required ∧
      ∀ d ∈ (heap.modify index fun _ => c).arenas, CursorOk d := by
  have hrep := replaced_by ha hr.base
  have hbases := hrep.bases_ok h.bases
  have htiled := hrep.forall_arenas h.tiled hr.tiled
  have hgrown : Grown kernel (arenaRegion heap.bases) heap.os
      (arenaRegion (heap.modify index fun _ => c).bases) heap.os := by
    rw [hrep.bases_eq]
    exact .refl
  refine ⟨⟨hbases, hgrown, htiled, slotPointer_ne_zero _ _, fun x r => ?_,
    fun hne => absurd rfl hne⟩, hrep.forall_arenas h.cursor hc⟩
  -- the span has its new length, the others are as they were
  by_cases hx : x = slotPointer a.base i
  · subst hx
    have hat : (heap.modify index fun _ => c).Used (slotPointer c.base i) r ↔ UsedSpan c i r :=
      used_at hbases htiled hrep.new hlt
    rw [hr.base] at hat
    rw [hat]
    constructor
    · intro hspan
      have heq := hspan.disjoint hr.tiled hr.span
      have hb1 := hspan.bounds hr.tiled
      have hb2 := hr.span.bounds hr.tiled
      exact .inr ⟨rfl, by omega⟩
    · intro hor
      rcases hor with ⟨hne, -⟩ | ⟨-, rfl⟩
      · exact absurd rfl hne
      · exact hr.span
  · rw [hrep.used_of_ne hr.others hx]
    simp [hx]

theorem Replaced.cursor_iff (h : Replaced heap heap' index a b) (hiff : CursorOk b ↔ CursorOk a)
    (hc : heap.arenas[j]? = some c) :
    ∃ d, heap'.arenas[j]? = some d ∧ (CursorOk d ↔ CursorOk c) := by
  by_cases hj : j = index
  · subst hj
    rcases Option.some.inj (hc.symm.trans h.old) with rfl
    exact ⟨b, h.new, hiff⟩
  · exact ⟨c, by rw [h.others j hj]; exact hc, Iff.rfl⟩

/-- Copying the data and releasing the old span. -/
theorem moveSpan_spec {source target : SlotArena} (hb : ArenasOk heap.bases heap.os)
    (ht : ∀ c ∈ heap.arenas, Tiled c) (hsource : heap.arenas[index]? = some source)
    (hspan : UsedSpan source i len) (htarget : heap.arenas[index']? = some target)
    (hnew : UsedSpan target j required) (hshort : len < required) :
    ∃ heap', moveSpan heap index i (slotPointer target.base j) = some heap' ∧
      heap'.bases = heap.bases ∧ heap'.os = heap.os ∧ (∀ c ∈ heap'.arenas, Tiled c) ∧
      (∀ x r, heap'.Used x r ↔ heap.Used x r ∧ x ≠ slotPointer source.base i) ∧
      ∀ (k : ℕ) (c : SlotArena), heap.arenas[k]? = some c →
        ∃ d, heap'.arenas[k]? = some d ∧ (CursorOk d ↔ CursorOk c) := by
  have hts := ht source (List.mem_of_getElem? hsource)
  have htt := ht target (List.mem_of_getElem? htarget)
  have hi : i < slotCount := by
    have := hspan.bounds hts
    omega
  have hfind := findArena_of_usedSpan hb htarget htt hnew
  -- the copy stays inside the new span
  let f : SlotArena → SlotArena := fun c =>
    copyHeaders source i c (slotToIndex c.base (slotPointer target.base j)) (source.slots i).length
  have hf : f target = copyHeaders source i target j len := by
    show copyHeaders source i target (slotToIndex target.base _) (source.slots i).length = _
    rw [slotToIndex_slotPointer, usedSpan_length hspan]
  have hover : Overwritten target (f target) j required := by
    rw [hf]
    refine ⟨rfl, rfl, fun k hk => ?_⟩
    simp only [copyHeaders]
    rw [if_neg (by omega)]
  rcases hover.spec htt hnew with ⟨htiled₁, hspans₁, hcursor₁⟩
  have hrep₁ : Replaced heap (heap.modify index' f) index' target (f target) :=
    replaced_modify htarget hover.base
  have hb₁ := hrep₁.bases_ok hb
  have ht₁ := hrep₁.forall_arenas ht htiled₁
  -- the old span is still there to be released
  obtain ⟨u, hu, hubase, huspan⟩ : ∃ u, (heap.modify index' f).arenas[index]? = some u ∧
      u.base = source.base ∧ UsedSpan u i len := by
    by_cases hindex : index = index'
    · subst hindex
      rcases Option.some.inj (hsource.symm.trans htarget) with rfl
      exact ⟨_, hrep₁.new, hover.base, (hspans₁ i len).mpr hspan⟩
    · exact ⟨source, by rw [hrep₁.others _ hindex]; exact hsource, rfl, hspan⟩
  rcases markUnused_spec (ht₁ u (List.mem_of_getElem? hu)) huspan with ⟨htiled₂, hspans₂, hstart₂⟩
  let g : SlotArena → SlotArena := fun c => c.markUnused i
  have hrep₂ : Replaced (heap.modify index' f) ((heap.modify index' f).modify index g) index u
      (u.markUnused i) := replaced_modify (f := g) hu rfl
  have hb₂ := hrep₂.bases_ok hb₁
  have ht₂ := hrep₂.forall_arenas ht₁ htiled₂
  have hcursor₂ : CursorOk (u.markUnused i) ↔ CursorOk u := by
    unfold CursorOk
    rw [hstart₂]
    exact Iff.rfl
  refine ⟨(heap.modify index' f).modify index g, ?_, ?_, rfl, ht₂, fun x r => ?_, fun k c hc => ?_⟩
  · unfold moveSpan
    simp only [hfind, hsource, Option.bind_eq_bind, Option.bind_some]
    rfl
  · rw [hrep₂.bases_eq, hrep₁.bases_eq]
  · rw [hrep₂.used_removed hb₂ ht₂ hi hspans₂, hrep₁.used_same hspans₁, hubase]
  · rcases hrep₁.cursor_iff hcursor₁ hc with ⟨d, hd, hdc⟩
    rcases hrep₂.cursor_iff hcursor₂ hd with ⟨e, he, hed⟩
    exact ⟨e, he, hed.trans hdc⟩

/-- After an extension that stayed too short, a search for `required` slots still works:
a cursor may have been swallowed by the span, which cannot serve the request. -/
theorem expanded_searchable (h : SlotOk heap)
    (hrep : Replaced heap (heap.modify index fun _ => b) index a b)
    (hexp : Expanded a b i r required len) (hshort : len < required) :
    ∀ c ∈ (heap.modify index fun _ => b).arenas, Searchable required c := by
  have hr := hexp.resized
  have hstop : i + len = slotCount ∨ (b.slots (i + len)).used = true := by
    rcases hexp.stop with hs | hs | hs
    · exact .inl hs
    · exact .inr hs
    · omega
  refine hrep.forall_arenas (h.searchable _) ⟨hr.tiled, ?_⟩
  rcases hexp.cursorOkOr with hok | ⟨stale, hst⟩
  · exact .inl hok
  · refine .inr ⟨i, len, stale, hr.span, hst.inside, hst.seg, hst.nonempty, hst.unused, ?_, hstop⟩
    have hend := hst.seg.end_eq
    have hin := hst.inside
    omega

/-- The cursors after the allocation of the new span: all but the one of the extended
arena are in place. -/
theorem AllocatedAt.cursorOk_of_ne {heap₁ heap₂ : SlotHeap} {a' b' d : SlotArena} {k q : ℕ}
    (halloc : AllocatedAt heap₁ heap₂ required q index' a' b' j)
    (hb : ArenasOk heap₁.bases heap₁.os) (hlt : i < slotCount) (hb₁ : heap₁.arenas[index]? = some b)
    (hcursors : ∀ e ∈ heap₁.arenas, CursorOk e ∨ e = b) (hd : heap₂.arenas[k]? = some d)
    (hk : k ≠ index) : CursorOk d := by
  rcases halloc.arena_origin hd with ⟨e, he, ⟨-, -, heq⟩ | ⟨-, htidy⟩⟩
  · rw [heq]
    exact halloc.served.cursorOk
  · refine htidy.cursorOk ?_
    rcases hcursors e (List.mem_of_getElem? he) with hok | rfl
    · exact hok
    · -- two arenas do not have the same addresses
      have hother : findArena heap₁ (slotPointer e.base i) = some k :=
        findArena_eq hb he ((inArena_iff _ _).mpr (slotPointer_bounds e.base hlt))
      have hself : findArena heap₁ (slotPointer e.base i) = some index :=
        findArena_eq hb hb₁ ((inArena_iff _ _).mpr (slotPointer_bounds e.base hlt))
      exact absurd (Option.some.inj (hother.symm.trans hself)) hk

/-- When a step keeps the cursors of all arenas and all but one were in place, that one
decides. -/
theorem cursors_iff {s : SlotArena} (hbases : heap'.bases = heap₂.bases)
    (hcursor : ∀ (k : ℕ) (c : SlotArena), heap₂.arenas[k]? = some c →
      ∃ d, heap'.arenas[k]? = some d ∧ (CursorOk d ↔ CursorOk c))
    (hs : heap₂.arenas[index]? = some s)
    (hothers : ∀ (k : ℕ) (c : SlotArena), heap₂.arenas[k]? = some c → k ≠ index → CursorOk c) :
    (∀ c ∈ heap'.arenas, CursorOk c) ↔ CursorOk s := by
  constructor
  · intro hall
    rcases hcursor index s hs with ⟨d, hd, hdc⟩
    exact hdc.mp (hall d (List.mem_of_getElem? hd))
  · intro hok c hc
    rcases List.mem_iff_getElem?.mp hc with ⟨k, hk⟩
    have hlen : k < heap₂.arenas.length := by
      have hlt := (List.getElem?_eq_some_iff.mp hk).1
      have hsame := congrArg List.length hbases
      simp only [SlotHeap.bases, List.length_map] at hsame
      omega
    have hk₂ := List.getElem?_eq_getElem hlen
    rcases hcursor k _ hk₂ with ⟨d, hd, hdc⟩
    have hcd : c = d := Option.some.inj (hk.symm.trans hd)
    rw [hcd, hdc]
    by_cases hki : k = index
    · subst hki
      rw [Option.some.inj (hk₂.symm.trans hs)]
      exact hok
    · exact hothers k _ hk₂ hki

/-- The cursor of the extended arena after the allocation: if the new span is in another
arena, it stays where it was, possibly inside the extended span. -/
theorem AllocatedAt.cursorOk_iff {a' b' s : SlotArena}
    (halloc : AllocatedAt heap₁ heap₂ required q index' a' b' j)
    (hb : ArenasOk heap₁.bases heap₁.os) (hexp : Expanded a b i r required len)
    (hb₁ : heap₁.arenas[index]? = some b) (hspan : UsedSpan s i len)
    (hscases : index = index' ∧ b = a' ∧ s = b' ∨ index ≠ index' ∧ Tidied b s) :
    CursorOk s ↔ ¬ (i < a.cursor ∧ a.cursor < i + len ∧ inArena a.base q = false) := by
  have hr := hexp.resized
  have hin := halloc.inArena_pointer hb hb₁
  rw [hr.base] at hin
  rcases hscases with ⟨hindex, rfl, rfl⟩ | ⟨hindex, htidy⟩
  · have hyes := hin.mpr hindex
    simp [hyes, halloc.served.cursorOk]
  · -- another arena: here the cursor has not moved
    have hno : inArena a.base q = false := by
      by_contra hq
      exact hindex (hin.mp (by simpa using hq))
    have hscursor : s.cursor = a.cursor := htidy.cursor.trans hexp.cursor
    rw [hno]
    constructor
    · intro hok hinside
      refine not_cursorOk_of_inside htidy.tiled hspan ?_ ?_ hok
      · rw [hscursor]
        exact hinside.1
      · rw [hscursor]
        exact hinside.2.1
    · intro hout
      refine htidy.cursorOk ((hexp.cursorOkOr.iff hr.tiled hr.span).mpr fun hinside => hout ?_)
      rw [hexp.cursor] at hinside
      exact ⟨hinside.1, hinside.2, rfl⟩

section TooSmall

variable (h : SlotOk heap) (ha : heap.arenas[index]? = some a) (hlt : i < slotCount)
  (hexp : Expanded a b i r required len)
include h ha hlt hexp

/-- The extended span was too small: the data moves to a new span. -/
theorem reallocate_moved (hshort : len < required)
    (hnewspan : SlotAllocated kernel (heap.modify index fun _ => b) required (q, heap₂)) :
    ∃ s heap', heap₂.arenas[index]? = some s ∧ moveSpan heap₂ index i q = some heap' ∧
      SlotReallocated kernel heap heap' (slotPointer a.base i) q required ∧
      ((∀ c ∈ heap'.arenas, CursorOk c) ↔
        ¬ (i < a.cursor ∧ a.cursor < i + len ∧ inArena a.base q = false)) := by
  have hr := hexp.resized
  have hrep := replaced_by ha hr.base
  rcases hnewspan with ⟨heap₁, index', a', b', j, hopen, halloc⟩
  simp only at halloc
  have hbases₁ := hopen.bases_ok (hrep.bases_ok h.bases)
  have htiled₁ := hopen.forall_arenas (hrep.forall_arenas h.tiled hr.tiled)
    fun page => ⟨_, create_tiled page⟩
  have hb₁ : heap₁.arenas[index]? = some b := hopen.getElem? hrep.new
  have hbases₂ := halloc.bases_ok hbases₁
  -- the extended span survives the allocation, so its data can be moved
  rcases halloc.arena_cases hb₁ with ⟨s, hs, hscases⟩
  rcases halloc.kept hscases with ⟨hskept, hsspans⟩
  have hsspan : UsedSpan s i len := hsspans i len hr.span
  have hsbase : s.base = a.base := hskept.trans hr.base
  have hnew : UsedSpan b' j required := (halloc.served.used j required).mpr (.inr ⟨rfl, rfl⟩)
  rcases moveSpan_spec hbases₂ halloc.tiled hs hsspan halloc.new hnew hshort with
    ⟨heap', hmove, hbases', hos', htiled', hused', hcursor'⟩
  rw [← halloc.pointer] at hmove
  have hfresh : ∀ r, ¬ heap₁.Used q r := halloc.pointer_unused hbases₁ htiled₁
  have hqp : q ≠ slotPointer a.base i := by
    intro heq
    have hused₁ : heap₁.Used (slotPointer a.base i) len := by
      rw [← hr.base]
      exact (used_at hbases₁ htiled₁ hb₁ hlt).mpr hr.span
    exact hfresh len (heq ▸ hused₁)
  refine ⟨s, heap', hs, hmove,
    ⟨?_, ?_, htiled', ?_, fun x r => ?_, fun _ r hr' => ?_⟩, ?_⟩
  · rw [hbases', hos']
    exact hbases₂
  · rw [hbases', hos', halloc.bases_eq, halloc.os, ← hrep.bases_eq]
    exact hopen.grown
  · rw [halloc.pointer]
    exact slotPointer_ne_zero _ _
  · rw [hused', halloc.used_iff, hopen.used_iff, hsbase]
    by_cases hx : x = slotPointer a.base i
    · subst hx
      simp [hqp.symm]
    · rw [hrep.used_of_ne hr.others hx]
      simp [hx]
  · refine hfresh r (hopen.used_iff.mpr ?_)
    rw [hrep.used_of_ne hr.others hqp]
    exact hr'
  · -- all other cursors are in place, so the one of the old arena decides
    have hcursors : ∀ e ∈ heap₁.arenas, CursorOk e ∨ e = b :=
      hopen.forall_arenas (hrep.forall_arenas (fun e he => .inl (h.cursor e he)) (.inr rfl))
        fun page => .inl (.inl .first)
    rw [cursors_iff hbases' hcursor' hs fun k c hc hk =>
      halloc.cursorOk_of_ne hbases₁ hlt hb₁ hcursors hc hk]
    exact halloc.cursorOk_iff hbases₁ hexp hb₁ hsspan hscases

/-- No new span was found. The old one stays as long as the extension has made it. -/
theorem reallocate_refused
    (hrefused : SlotRefused kernel (heap.modify index fun _ => b) heap₁ heap₂) :
    (∀ r', heap₂.Used (slotPointer a.base i) r' ↔ r' = len) ∧
      (len = r → SlotOk heap₂ ∧
        Grown kernel (arenaRegion heap.bases) heap.os (arenaRegion heap₂.bases) heap₂.os ∧
        ∀ x r', heap₂.Used x r' ↔ heap.Used x r') := by
  have hr := hexp.resized
  have hrep := replaced_by ha hr.base
  constructor
  · intro r'
    have hbases := hrep.bases_ok h.bases
    rw [hrefused.used_iff, ← hr.base]
    have hat : (heap.modify index fun _ => b).Used (slotPointer b.base i) r' ↔ UsedSpan b i r' :=
      used_at hbases (hrep.forall_arenas h.tiled hr.tiled) hrep.new hlt
    rw [hat]
    constructor
    · intro hspan
      rw [← usedSpan_length hspan, usedSpan_length hr.span]
    · intro heq
      rw [heq]
      exact hr.span
  · intro hlen
    -- nothing was merged, so the arena is the one before
    rcases hexp.origin with ⟨rfl, -⟩ | ⟨hgrew, -⟩
    · have hspans : ∀ x r', (heap.modify index fun _ => b).Used x r' ↔ heap.Used x r' :=
        fun x r' => hrep.used_same fun _ _ => Iff.rfl
      have hok := hrep.ok h hr.tiled (h.cursor b (List.mem_of_getElem? ha))
      refine ⟨hrefused.ok hok, ?_, fun x r' => ?_⟩
      · rw [← hrep.bases_eq]
        exact hrefused.grown
      · rw [hrefused.used_iff, hspans]
    · omega

end TooSmall

/-- What `slot_allocator_reallocate` returns for the span of `r` slots at `p`: the span is
in place or has moved, or there was no page for a new arena. A span that could not move
has swallowed the free spans behind it. -/
inductive SpanReallocatePost (kernel : Kernel) (heap : SlotHeap) (p r size : ℕ)
    (res : SpanReallocated) : Prop where
  | moved : SlotReallocated kernel heap res.heap p res.pointer (requiredSlots size) →
      ((∀ c ∈ res.heap.arenas, CursorOk c) ↔ overrunsCursor heap p size = false) →
      SpanReallocatePost kernel heap p r size res
  | refused (len : ℕ) : res.pointer = 0 → res.copies = [] → ¬ kernel.Succeeds →
      r ≤ len → (∀ r', res.heap.Used p r' ↔ r' = len) → (r < len ↔ freeFollows heap p = true) →
      (len = r → SlotOk res.heap ∧
        Grown kernel (arenaRegion heap.bases) heap.os (arenaRegion res.heap.bases) res.heap.os ∧
        ∀ x r', res.heap.Used x r' ↔ heap.Used x r') →
      SpanReallocatePost kernel heap p r size res

/-- The arena `a` and the slot `i` of the span of `r` slots at `p`, and the arena `b` after
the merging loop. -/
structure Extension (heap : SlotHeap) (p r required index : ℕ) (a : SlotArena) (i : ℕ)
    (b : SlotArena) (len : ℕ) : Prop where
  arena : heap.arenas[index]? = some a
  span : UsedSpan a i r
  pointer : p = slotPointer a.base i
  bound : i < slotCount
  found : findArena heap p = some index
  slot : slotToIndex a.base p = i
  merged : Loop.run (expandStep i required) (slotCount + 1) a = some b
  expanded : Expanded a b i r required len

theorem exists_extension (h : SlotOk heap) (hu : heap.Used p r) (required : ℕ) :
    ∃ index a i b len, Extension heap p r required index a i b len := by
  rcases h.locate hu with ⟨index, a, i, ha, hmem, hi, hp, hlt, hfind, hindex⟩
  rcases expand_spec required (h.tiled a hmem) (h.cursor a hmem) hi with ⟨b, hrun, len, hexp⟩
  exact ⟨index, a, i, b, len, ha, hi, hp, hlt, hfind, hindex, hrun, hexp⟩

namespace Extension

variable (hx : Extension heap p r (requiredSlots size) index a i b len)
include hx

/-- The merging loop does not shorten the span. -/
theorem le_length : r ≤ len := by
  rcases hx.expanded.origin with ⟨-, heq⟩ | ⟨hgrew, -⟩
  · exact heq.ge
  · exact hgrew.le

theorem freeFollows_eq : freeFollows heap p = a.freeFollows i := by
  unfold freeFollows
  simp only [hx.found, Option.bind_some, hx.arena, hx.slot]

/-- The length after the merging loop, in terms of the arena before it. -/
theorem total_cases (h : SlotOk heap) : (∀ k, k ≠ i → b.slots k = a.slots k) ∧
    (len = r + a.freeBehind i ∨ requiredSlots size < len ∧ len ≤ r + a.freeBehind i) := by
  have htiled := h.tiled a (List.mem_of_getElem? hx.arena)
  have hpos := (hx.span.bounds htiled).1
  have hlen := usedSpan_length hx.span
  rcases htiled with ⟨l, hs⟩
  rcases ((usedSpan_iff hs).mp hx.span).split with ⟨pre, post, rfl, hpre⟩
  rw [seg_append, Nat.zero_add, hpre] at hs
  have hpost : Seg a.slots (i + r) post slotCount := hs.2.2.2
  have hend := hpost.end_eq
  have hbound := hpost.length_le
  have hfree : a.freeBehind i = leading post := by
    unfold SlotArena.freeBehind
    rw [hlen, hpost.follow_eq (by omega)]
  have htotal := expand_total hx.span hpos hpost hx.merged
  rw [usedSpan_length hx.expanded.resized.span, ← hfree] at htotal
  exact htotal

/-- With the cursor behind the span the merging loop does not change the room. -/
theorem room_eq (h : SlotOk heap) (hcursor : i < a.cursor) : b.room = a.room := by
  unfold SlotArena.room
  rw [hx.expanded.cursor]
  congr 1
  exact follow_congr fun k hk => (hx.total_cases h).1 k (by omega)

/-- The new span is in the arena of the old one exactly when that is the first one with
room. -/
theorem inArena_iff_firstRoom (h : SlotOk heap) (hcursor : i < a.cursor) {a' b' : SlotArena}
    (hopen : Opened kernel (heap.modify index fun _ => b) heap₁)
    (hserved : AllocatedAt heap₁ heap₂ (requiredSlots size) q index' a' b' j)
    (hroom : requiredSlots size ≤ a'.room)
    (hbefore : NoRoomBefore heap₁ (requiredSlots size) index') :
    inArena a.base q = true ↔ firstRoom heap (requiredSlots size) = some index := by
  have hrep := replaced_by hx.arena hx.expanded.resized.base
  have hlt := (List.getElem?_eq_some_iff.mp hrep.new).1
  rw [← hx.expanded.resized.base,
    hserved.inArena_pointer (hopen.bases_ok (hrep.bases_ok h.bases)) (hopen.getElem? hrep.new),
    ← firstRoom_modify hx.arena (hx.room_eq h hcursor)]
  exact (firstRoom_iff hopen hlt hserved.old hroom hbefore).symm

/-- A span that is large enough overruns no cursor. -/
theorem overrunsCursor_enough (h : SlotOk heap) (henough : requiredSlots size ≤ len) :
    overrunsCursor heap p size = false := by
  have hno : ¬ r + a.freeBehind i < requiredSlots size := by
    rcases (hx.total_cases h).2 with hlen | hlen
    · omega
    · omega
  unfold overrunsCursor
  simp only [hx.found, hx.arena, hx.slot, usedSpan_length hx.span, decide_eq_false hno,
    Bool.false_and]

/-- For a span that is too small it is the arena of the new span that counts. -/
theorem overrunsCursor_short (h : SlotOk heap) (hshort : len < requiredSlots size)
    (hin : i < a.cursor → (inArena a.base q = true ↔
      firstRoom heap (requiredSlots size) = some index)) :
    overrunsCursor heap p size =
      (decide (i < a.cursor) && decide (a.cursor < i + len) && !inArena a.base q) := by
  have hlen : len = r + a.freeBehind i := by
    rcases (hx.total_cases h).2 with hlen | hlen
    · exact hlen
    · omega
  unfold overrunsCursor
  simp only [hx.found, hx.arena, hx.slot, usedSpan_length hx.span, ← hlen, decide_eq_true hshort,
    Bool.true_and]
  -- the question arises only for a cursor behind the start of the span
  by_cases hcursor : i < a.cursor
  · have hsame : decide (firstRoom heap (requiredSlots size) ≠ some index) =
        !inArena a.base q := by
      by_cases hq : inArena a.base q = true
      · simp [hq, (hin hcursor).mp hq]
      · simp only [Bool.not_eq_true] at hq
        have hne : firstRoom heap (requiredSlots size) ≠ some index := fun heq => by
          rw [(hin hcursor).mpr heq] at hq
          cases hq
        simp [hq, hne]
    rw [hsame]
  · simp [hcursor]

/-- The call when the span is large enough. -/
theorem call_enough (kernel : Kernel) (rounds : ℕ) (hu : heap.Used p r)
    (henough : requiredSlots size ≤ len) :
    slotAllocatorReallocateWithin kernel rounds heap p size =
      some ⟨p, heap.modify index fun _ =>
        { b.trim i (requiredSlots size) with cursor := i + requiredSlots size }, []⟩ := by
  have hlength : ((b.trim i (requiredSlots size)).slots i).length = requiredSlots size := by
    apply trim_length
    rw [usedSpan_length hx.expanded.resized.span]
    exact henough
  unfold slotAllocatorReallocateWithin
  simp only [initialArena_of_used hu, hx.found, hx.arena, hx.slot, hx.merged, Option.bind_eq_bind,
    Option.bind_some, hlength, if_true]
  rfl

/-- The call when the span is too small even after merging. -/
theorem call_short (kernel : Kernel) (rounds : ℕ) (hu : heap.Used p r)
    (hshort : len < requiredSlots size) :
    slotAllocatorReallocateWithin kernel rounds heap p size =
      (slotAllocatorAllocateWithin kernel rounds (heap.modify index fun _ => b) size).bind
        fun x => if x.1 = 0 then some ⟨0, x.2, []⟩ else
          x.2.arenas[index]?.bind fun source => (moveSpan x.2 index i x.1).bind fun heap' =>
            some ⟨x.1, heap', [⟨x.1, p, (source.slots i).length * slotSize⟩]⟩ := by
  have hlen := usedSpan_length hx.expanded.resized.span
  have htrim : b.trim i (requiredSlots size) = b := by
    unfold SlotArena.trim
    rw [if_neg (by omega)]
  unfold slotAllocatorReallocateWithin
  simp only [initialArena_of_used hu, hx.found, hx.arena, hx.slot, hx.merged, Option.bind_eq_bind,
    Option.bind_some, htrim]
  rw [if_neg (by omega)]
  rfl

theorem searchable (h : SlotOk heap) (hshort : len < requiredSlots size) :
    ∀ c ∈ (heap.modify index fun _ => b).arenas, Searchable (requiredSlots size) c :=
  expanded_searchable h (replaced_by hx.arena hx.expanded.resized.base) hx.expanded hshort

/-- The search for a new span ends when an arena can hold it. -/
theorem allocate_ends (kernel : Kernel) (h : SlotOk heap) (hshort : len < requiredSlots size)
    (hle : requiredSlots size ≤ slotCount) :
    ∃ res, slotAllocatorAllocateWithin kernel (heap.arenas.length + 4)
      (heap.modify index fun _ => b) size = some res := by
  rcases allocate_arenas_ends (by omega) (hx.searchable h hshort) kernel hle with ⟨res, hrun⟩
  refine ⟨res, Loop.run_mono ?_ hrun⟩
  simp [SlotHeap.modify]

end Extension

section Call

variable (h : SlotOk heap) (hu : heap.Used p r) (hpos : 0 < requiredSlots size)
include h hu hpos

/-- Whatever a reallocation of a used span returns: the spans change as they should, and all
cursors are in place afterwards exactly when the call does not strand one; or the span
stays. -/
theorem slotReallocate_post {res : SpanReallocated}
    (hrun : slotAllocatorReallocateWithin kernel rounds heap p size = some res) :
    SpanReallocatePost kernel heap p r size res := by
  rcases exists_extension h hu (requiredSlots size) with ⟨index, a, i, b, len, hx⟩
  have hp := hx.pointer
  rcases Nat.lt_or_ge len (requiredSlots size) with hshort | henough
  · rw [hx.call_short kernel rounds hu hshort, Option.bind_eq_some_iff] at hrun
    rcases hrun with ⟨⟨q, heap₂⟩, halloc, hrun⟩
    rcases (allocate_arenas_scan hpos (hx.searchable h hshort) halloc).1 with
      ⟨heap₁, index', a', b', j, hopen, hat, hroom, hbefore, -⟩ | ⟨hnull, -, heap₁, hrefused⟩
    · -- the data has moved
      have hnew : SlotAllocated kernel (heap.modify index fun _ => b) (requiredSlots size)
          (q, heap₂) := ⟨heap₁, index', a', b', j, hopen, hat⟩
      rcases reallocate_moved h hx.arena hx.bound hx.expanded hshort hnew with
        ⟨s, heap', hs, hmove, hpost, hcursor⟩
      rw [← hp] at hpost
      simp only [if_neg hpost.nonzero, hs, hmove, Option.bind_some, Option.some.injEq] at hrun
      subst hrun
      have hover := hx.overrunsCursor_short h hshort fun hbehind =>
        hx.inArena_iff_firstRoom h hbehind hopen hat hroom hbefore
      refine .moved hpost ?_
      rw [hcursor, hover]
      simp
    · obtain rfl : q = 0 := hnull
      rcases reallocate_refused h hx.arena hx.bound hx.expanded hrefused with
        ⟨hkept, hsame⟩
      simp only [if_true, Option.some.injEq] at hrun
      subst hrun
      refine .refused len rfl rfl hrefused.fails hx.le_length (hp ▸ hkept) ?_ hsame
      rw [hx.freeFollows_eq]
      exact hx.expanded.grew_iff hx.span hshort
  · rcases trim_spec hx.expanded.resized hpos henough with ⟨hresized, hok⟩
    rcases reallocate_inPlace kernel h hx.arena hx.bound hresized hok with ⟨hpost, hcursor⟩
    rw [← hp] at hpost
    rw [hx.call_enough kernel rounds hu henough, Option.some.injEq] at hrun
    subst hrun
    exact .moved hpost ⟨fun _ => hx.overrunsCursor_enough h henough, fun _ => hcursor⟩

omit hpos in
/-- A size that wraps around to no slots at all is served in place. -/
theorem slotReallocate_zero {res : SpanReallocated}
    (hrun : slotAllocatorReallocateWithin kernel rounds heap p size = some res)
    (hzero : requiredSlots size = 0) : res.pointer = p := by
  rcases exists_extension h hu (requiredSlots size) with ⟨index, a, i, b, len, hx⟩
  rw [hx.call_enough kernel rounds hu (by omega), Option.some.injEq] at hrun
  rw [← hrun]

/-- A reallocation to a size that an arena can hold returns. -/
theorem slotReallocate_ends (kernel : Kernel) (hle : requiredSlots size ≤ slotCount) :
    ∃ res, slotAllocatorReallocateWithin kernel (heap.arenas.length + 4) heap p size =
      some res := by
  rcases exists_extension h hu (requiredSlots size) with ⟨index, a, i, b, len, hx⟩
  rcases Nat.lt_or_ge len (requiredSlots size) with hshort | henough
  · rcases hx.allocate_ends kernel h hshort hle with ⟨⟨q, heap₂⟩, hends⟩
    rw [hx.call_short kernel _ hu hshort, hends]
    simp only [Option.bind_some]
    rcases allocate_arenas_post hpos (hx.searchable h hshort) hends with hnew | ⟨hnull, -⟩
    · rcases reallocate_moved h hx.arena hx.bound hx.expanded hshort hnew with
        ⟨s, heap', hs, hmove, hpost, -⟩
      simp only [if_neg hpost.nonzero, hs, hmove, Option.bind_some]
      exact ⟨_, rfl⟩
    · obtain rfl : q = 0 := hnull
      exact ⟨_, rfl⟩
  · exact ⟨_, hx.call_enough kernel _ hu henough⟩

/-- With memory for it a reallocation to a size that an arena can hold succeeds. -/
theorem slotReallocate_spec (hkernel : kernel.Succeeds) (hle : requiredSlots size ≤ slotCount) :
    ∃ q heap', slotAllocatorReallocate kernel heap p size = some (q, heap') ∧
      SlotReallocated kernel heap heap' p q (requiredSlots size) ∧
      ((∀ c ∈ heap'.arenas, CursorOk c) ↔ overrunsCursor heap p size = false) := by
  rcases slotReallocate_ends h hu hpos kernel hle with ⟨res, hends⟩
  cases slotReallocate_post h hu hpos hends with
  | moved hpost hcursor =>
    exact ⟨res.pointer, res.heap, by simp [slotAllocatorReallocate, hends], hpost, hcursor⟩
  | refused len hnull hcopies hfails => exact absurd hkernel hfails

end Call

end SysProg.Memory
