import Mathlib.Tactic

/-!
# Spans recorded by in-band headers

A row of `n` cells is cut into spans. The first cell of each span holds a header with
the span's length; what stands in the other cells is arbitrary.

* `Seg h i l j` — the headers `h` cut the cells from `i` up to `j` into the spans `l`;
* `At l k s` — the span `s` of the list `l` starts at cell `k`; `IsStart l k` — a span
  starts at `k`, or `k` is the end;
* `Start h n k` — `k` is reached from cell `0` by following the lengths, and lies
  before `n`. On a row that is cut into spans this is `IsStart` (`Seg.start_iff`);
* `follow h n fuel i` — the spans that the headers from `i` on lead through;
* `leading l`, `room l` — the free cells before the first used span, and the longest run
  of free cells. Merging two free spans does not change them;
* `FreeCell l j` — cell `j` lies in a free span; `le_room_iff` says what the room is in
  terms of cells.

Every change of headers in this theory is an instance of `Seg.splice`: some spans in
the middle are replaced by others of the same total length.
-/

namespace Spans

/-- The header of a span. -/
structure Span where
  length : ℕ
  used : Bool
deriving DecidableEq, Repr

/-- The cells from `i` up to `j` are cut into the spans `l`. -/
def Seg (h : ℕ → Span) : ℕ → List Span → ℕ → Prop
  | i, [], j => i = j
  | i, s :: l, j => h i = s ∧ 0 < s.length ∧ Seg h (i + s.length) l j

/-- The number of cells of a list of spans. -/
def total (l : List Span) : ℕ :=
  (l.map Span.length).sum

variable {h h' : ℕ → Span} {l pre mid post : List Span} {s t : Span} {i j k n r : ℕ}

@[simp] theorem total_nil : total [] = 0 := rfl

@[simp] theorem total_cons : total (s :: l) = s.length + total l := by
  simp [total]

@[simp] theorem total_append : total (pre ++ post) = total pre + total post := by
  simp [total]

theorem Seg.end_eq (hs : Seg h i l j) : j = i + total l := by
  induction l generalizing i with
  | nil => exact hs.symm
  | cons s l ih =>
    have := ih hs.2.2
    simp only [total_cons]
    omega

theorem seg_append : Seg h i (pre ++ post) j ↔
    Seg h i pre (i + total pre) ∧ Seg h (i + total pre) post j := by
  induction pre generalizing i with
  | nil => simp [Seg]
  | cons s l ih =>
    simp only [List.cons_append, Seg, total_cons, ih, and_assoc]
    rw [show i + s.length + total l = i + (s.length + total l) by omega]

/-- Only the headers in the range matter. -/
theorem Seg.congr (hs : Seg h i l j) (heq : ∀ k, i ≤ k → k < j → h' k = h k) :
    Seg h' i l j := by
  induction l generalizing i with
  | nil => exact hs
  | cons s l ih =>
    rcases hs with ⟨h1, hpos, h2⟩
    have hend := h2.end_eq
    refine ⟨?_, hpos, ih h2 fun k hk => heq k (by omega)⟩
    rw [heq i (le_refl i) (by omega), h1]

theorem Seg.pos (hs : Seg h i l j) (ht : t ∈ l) : 0 < t.length := by
  induction l generalizing i with
  | nil => simp at ht
  | cons s l ih =>
    rcases List.mem_cons.mp ht with rfl | ht
    · exact hs.2.1
    · exact ih hs.2.2 ht

/-- Replace the spans in the middle by others of the same total length. -/
theorem Seg.splice {mid' : List Span} (hs : Seg h i (pre ++ mid ++ post) j)
    (hmid : Seg h' (i + total pre) mid' (i + total pre + total mid))
    (hout : ∀ k, k < i + total pre ∨ i + total pre + total mid ≤ k → h' k = h k) :
    Seg h' i (pre ++ mid' ++ post) j := by
  have htotal := hmid.end_eq
  rw [List.append_assoc, seg_append, seg_append] at hs ⊢
  rcases hs with ⟨hpre, hold, hpost⟩
  have hsame : i + total pre + total mid' = i + total pre + total mid := htotal.symm
  refine ⟨hpre.congr fun k _ hk => hout k (.inl hk), ?_, ?_⟩
  · rw [hsame]
    exact hmid
  · rw [hsame]
    exact hpost.congr fun k hk _ => hout k (.inr hk)

/-! ## Where spans start -/

/-- The span `t` starts at cell `k` of the row. -/
def At : List Span → ℕ → Span → Prop
  | [], _, _ => False
  | s :: l, k, t => k = 0 ∧ t = s ∨ s.length ≤ k ∧ At l (k - s.length) t

/-- A span starts at `k`, or the row ends there. -/
def IsStart (l : List Span) (k : ℕ) : Prop :=
  ∃ pre post, l = pre ++ post ∧ total pre = k

theorem at_append : At (pre ++ post) k t ↔
    At pre k t ∨ total pre ≤ k ∧ At post (k - total pre) t := by
  induction pre generalizing k with
  | nil => simp [At]
  | cons s l ih =>
    simp only [List.cons_append, At, ih, total_cons, or_assoc, Nat.sub_sub]
    constructor
    · rintro (h | ⟨h1, h | ⟨h2, h3⟩⟩)
      · exact .inl h
      · exact .inr (.inl ⟨h1, h⟩)
      · exact .inr (.inr ⟨by omega, h3⟩)
    · rintro (h | ⟨h1, h⟩ | ⟨h2, h3⟩)
      · exact .inl h
      · exact .inr ⟨h1, .inl h⟩
      · exact .inr ⟨by omega, .inr ⟨by omega, h3⟩⟩

/-- A list in three parts. -/
theorem at_append_append : At (pre ++ mid ++ post) k t ↔ At pre k t ∨
    (total pre ≤ k ∧ At mid (k - total pre) t) ∨
      (total pre + total mid ≤ k ∧ At post (k - (total pre + total mid)) t) := by
  rw [at_append, at_append, total_append, or_assoc]

/-- Spans of the middle part that come and go are all that changes in a splice. -/
theorem at_splice {mid' : List Span} (htotal : total mid' = total mid)
    (hmid : ∀ j, At mid' j t ↔ At mid j t) :
    At (pre ++ mid' ++ post) k t ↔ At (pre ++ mid ++ post) k t := by
  rw [at_append_append, at_append_append, hmid, htotal]

theorem At.split (ht : At l k t) : ∃ pre post, l = pre ++ t :: post ∧ total pre = k := by
  induction l generalizing k with
  | nil => exact absurd ht id
  | cons s l ih =>
    rcases ht with ⟨rfl, rfl⟩ | ⟨hle, ht⟩
    · exact ⟨[], l, rfl, rfl⟩
    · rcases ih ht with ⟨pre, post, rfl, hk⟩
      refine ⟨s :: pre, post, rfl, ?_⟩
      simp only [total_cons]
      omega

/-- Unused spans are not at any place as used ones. -/
theorem not_at_used {m : List Span} (hm : ∀ s ∈ m, s.used = false) (j r : ℕ) :
    ¬ At m j ⟨r, true⟩ := by
  intro hat
  rcases hat.split with ⟨pre, post, rfl, -⟩
  have hused := hm ⟨r, true⟩ (by simp)
  simp at hused

theorem at_mid (pre post : List Span) (t : Span) : At (pre ++ t :: post) (total pre) t := by
  rw [at_append]
  exact .inr ⟨le_refl _, .inl ⟨by omega, rfl⟩⟩

theorem At.isStart (ht : At l k t) : IsStart l k := by
  rcases ht.split with ⟨pre, post, rfl, hk⟩
  exact ⟨pre, t :: post, rfl, hk⟩

theorem isStart_iff_take : IsStart l k ↔ ∃ m, total (l.take m) = k := by
  constructor
  · intro hk
    rcases hk with ⟨pre, post, rfl, rfl⟩
    exact ⟨pre.length, by simp⟩
  · intro hk
    rcases hk with ⟨m, rfl⟩
    exact ⟨l.take m, l.drop m, (List.take_append_drop m l).symm, rfl⟩

/-- Where spans start depends on their lengths only. -/
theorem isStart_congr {l' : List Span} (hlen : l.map Span.length = l'.map Span.length) :
    IsStart l k ↔ IsStart l' k := by
  simp only [isStart_iff_take, total, List.map_take, hlen]

/-- Starts up to the end of the first part do not depend on the second. -/
theorem IsStart.of_le {rest : List Span} (hs : Seg h i (pre ++ post) j)
    (hk : IsStart (pre ++ post) k) (hle : k ≤ total pre) : IsStart (pre ++ rest) k := by
  rcases hk with ⟨p, q, heq, rfl⟩
  rcases List.append_eq_append_iff.mp heq with ⟨as, rfl, hrest⟩ | ⟨as, rfl, hrest⟩
  · -- the cut lies behind `pre`, so nothing stands between them
    cases as with
    | nil => exact ⟨pre, rest, rfl, by simp⟩
    | cons s as =>
      have hpos : 0 < s.length := hs.pos (t := s) (by simp [hrest])
      simp only [total_append, total_cons] at hle
      omega
  · exact ⟨p, as ++ rest, by simp, rfl⟩

/-- Starts behind the first part depend only on its total length. -/
theorem IsStart.of_ge (pre' : List Span) (hs : Seg h i (pre ++ post) j)
    (hk : IsStart (pre ++ post) k) (hge : total pre ≤ k) (htotal : total pre' = total pre) :
    IsStart (pre' ++ post) k := by
  rcases hk with ⟨p, q, heq, rfl⟩
  rcases List.append_eq_append_iff.mp heq with ⟨as, rfl, hrest⟩ | ⟨as, rfl, hrest⟩
  · exact ⟨pre' ++ as, q, by simp [hrest], by simp [htotal]⟩
  · cases as with
    | nil =>
      simp only [List.append_nil] at htotal
      exact ⟨pre', post, rfl, htotal⟩
    | cons s as =>
      have hpos : 0 < s.length := hs.pos (t := s) (by simp)
      simp only [total_append, total_cons] at hge
      omega

/-- On a row cut into spans, a span is what its header says, inside the row. -/
theorem Seg.at_spec (hs : Seg h 0 l n) (ht : At l k t) :
    h k = t ∧ 0 < t.length ∧ k + t.length ≤ n := by
  rcases ht.split with ⟨pre, post, rfl, rfl⟩
  have hend := hs.end_eq
  rw [seg_append, Nat.zero_add] at hs
  rcases hs with ⟨-, hhead, hpos, -⟩
  simp only [total_append, total_cons] at hend
  exact ⟨hhead, hpos, by omega⟩

theorem Seg.at_unique (hs : Seg h 0 l n) (ht : At l k t) (ht' : At l k s) : t = s :=
  (hs.at_spec ht).1.symm.trans (hs.at_spec ht').1

/-- A later start lies behind the whole span. -/
theorem At.end_le (ht : At l k t) (hj : IsStart l j) (hlt : k < j) : k + t.length ≤ j := by
  rcases ht.split with ⟨pre, post, hl, rfl⟩
  rcases hj with ⟨pre', post', rfl, rfl⟩
  rcases List.append_eq_append_iff.mp hl with ⟨as, rfl, hrest⟩ | ⟨as, rfl, hrest⟩
  · simp only [total_append] at hlt
    omega
  · cases as with
    | nil => simp at hlt
    | cons a as =>
      simp only [List.cons_append, List.cons.injEq] at hrest
      rcases hrest with ⟨rfl, -⟩
      simp only [total_append, total_cons]
      omega

/-- No span starts inside another one. -/
theorem At.not_inside (ht : At l k t) (h1 : k < j) (h2 : j < k + t.length) : ¬ IsStart l j := by
  intro hj
  have := ht.end_le hj h1
  omega

/-- Headers inside a span may change. -/
theorem Seg.congr_inside (hs : Seg h 0 l n) (ht : At l k t)
    (heq : ∀ j, j ≤ k ∨ k + t.length ≤ j → h' j = h j) : Seg h' 0 l n := by
  rcases ht.split with ⟨pre, post, rfl, rfl⟩
  have hhead := hs.at_spec (at_mid pre post t)
  have hsplice := hs
  rw [show pre ++ t :: post = pre ++ [t] ++ post by simp] at hsplice ⊢
  refine hsplice.splice ?_ ?_
  · refine ⟨?_, hhead.2.1, ?_⟩
    · rw [Nat.zero_add, heq _ (.inl (le_refl _))]
      exact hhead.1
    · show 0 + total pre + t.length = _
      simp
  · intro j hj
    apply heq
    simp only [total_cons, total_nil] at hj
    omega

/-! ## Following the headers -/

/-- A cell before `n` that is reached from cell `0` by following the lengths. -/
inductive Start (h : ℕ → Span) (n : ℕ) : ℕ → Prop where
  | first : Start h n 0
  | next {i : ℕ} : Start h n i → i + (h i).length < n → Start h n (i + (h i).length)

theorem Seg.start_iff (hs : Seg h 0 l n) (hn : 0 < n) : Start h n k ↔ k < n ∧ IsStart l k := by
  constructor
  · intro hk
    induction hk with
    | first => exact ⟨hn, [], l, rfl, rfl⟩
    | @next i _ hlt ih =>
      rcases ih with ⟨-, pre, post, rfl, rfl⟩
      cases post with
      | nil =>
        have hend := hs.end_eq
        simp only [List.append_nil] at hend
        omega
      | cons s post =>
        have hspec := hs.at_spec (at_mid pre post s)
        rw [hspec.1] at hlt ⊢
        exact ⟨hlt, pre ++ [s], post, by simp, by simp⟩
  · intro hk
    rcases hk with ⟨hlt, pre, post, rfl, rfl⟩
    -- follow the spans of the first part one by one
    induction pre using List.reverseRecOn generalizing post with
    | nil => exact .first
    | append_singleton pre s ih =>
      have hspec := hs.at_spec (k := total pre) (t := s) (by
        rw [List.append_assoc]
        exact at_mid pre _ s)
      simp only [total_append, total_cons, total_nil, Nat.add_zero] at hlt ⊢
      have hprev := ih (s :: post) (by simpa using hs) (by omega)
      have hnext := hprev.next (by rw [hspec.1]; exact hlt)
      rwa [hspec.1] at hnext

theorem Seg.isStart_end (hs : Seg h 0 l n) : IsStart l n := by
  have hend := hs.end_eq
  exact ⟨l, [], by simp, by omega⟩

theorem IsStart.at_of_lt (hs : Seg h 0 l n) (hk : IsStart l k) (hlt : k < n) : At l k (h k) := by
  rcases hk with ⟨pre, post, rfl, rfl⟩
  cases post with
  | nil =>
    have hend := hs.end_eq
    simp only [List.append_nil] at hend
    omega
  | cons s post =>
    have hat := at_mid pre post s
    rw [(hs.at_spec hat).1]
    exact hat

/-! ## Free cells -/

/-- The spans that the headers from cell `i` on lead through up to `n`, at most `fuel`. -/
def follow (h : ℕ → Span) (n : ℕ) : ℕ → ℕ → List Span
  | 0, _ => []
  | fuel + 1, i => if i < n then h i :: follow h n fuel (i + (h i).length) else []

/-- The free cells before the first used span. -/
def leading : List Span → ℕ
  | [] => 0
  | s :: l => if s.used then 0 else s.length + leading l

/-- The longest run of free cells. -/
def room : List Span → ℕ
  | [] => 0
  | s :: l => max (leading (s :: l)) (room l)

theorem Seg.length_le (hs : Seg h i l n) : l.length ≤ total l := by
  induction l generalizing i with
  | nil => exact le_rfl
  | cons s l ih =>
    have hpos := hs.2.1
    have hrest := ih hs.2.2
    simp only [List.length_cons, total_cons]
    omega

theorem Seg.follow_eq {fuel : ℕ} (hs : Seg h i l n) (hfuel : l.length ≤ fuel) :
    follow h n fuel i = l := by
  induction fuel generalizing i l with
  | zero => exact (List.length_eq_zero_iff.mp (Nat.le_zero.mp hfuel)).symm
  | succ fuel ih =>
    have hend := hs.end_eq
    cases l with
    | nil => exact if_neg (by rw [hend]; simp)
    | cons s l =>
      rcases hs with ⟨rfl, hpos, hrest⟩
      simp only [total_cons] at hend
      simp only [follow, if_pos (show i < n by omega), List.cons.injEq, true_and]
      exact ih hrest (Nat.le_of_succ_le_succ hfuel)

theorem follow_congr {fuel : ℕ} (heq : ∀ k, i ≤ k → h' k = h k) :
    follow h' n fuel i = follow h n fuel i := by
  induction fuel generalizing i with
  | zero => rfl
  | succ fuel ih =>
    simp only [follow, heq i le_rfl]
    rw [ih fun k hk => heq k (le_trans (Nat.le_add_right _ _) hk)]

theorem leading_of_used (hs : s.used = true) : leading (s :: l) = 0 := by
  simp [leading, hs]

theorem leading_of_free (hs : s.used = false) : leading (s :: l) = s.length + leading l := by
  simp [leading, hs]

theorem room_of_used (hs : s.used = true) : room (s :: l) = room l := by
  simp [room, leading_of_used hs]

theorem le_room_of_free (hs : s.used = false) : s.length ≤ room (s :: l) := by
  rw [room, leading_of_free hs]
  omega

/-- A free span with no free one behind it. -/
theorem room_of_closed (hs : s.used = false) (hl : leading l = 0) :
    room (s :: l) = max s.length (room l) := by
  rw [room, leading_of_free hs, hl, Nat.add_zero]

theorem room_merge (hs : s.used = false) (ht : t.used = false) :
    room ({ s with length := s.length + t.length } :: l) = room (s :: t :: l) := by
  simp only [room]
  rw [leading_of_free (s := { s with length := s.length + t.length }) hs, leading_of_free hs,
    leading_of_free ht]
  show max (s.length + t.length + leading l) (room l) = _
  omega

/-- Cell `j` of the row lies in a free span. -/
def FreeCell : List Span → ℕ → Prop
  | [], _ => False
  | s :: l, j => if j < s.length then s.used = false else FreeCell l (j - s.length)

theorem freeCell_append (hge : total pre ≤ j) :
    FreeCell (pre ++ post) j ↔ FreeCell post (j - total pre) := by
  induction pre generalizing j with
  | nil => rfl
  | cons s l ih =>
    simp only [total_cons] at hge ⊢
    rw [List.cons_append, FreeCell, if_neg (by omega), ih (by omega), Nat.sub_sub]

/-- A cell is free if it lies in no used span. -/
theorem freeCell_iff (hs : Seg h i l n) : FreeCell l j ↔
    j < total l ∧ ∀ k r, At l k ⟨r, true⟩ → ¬ (k ≤ j ∧ j < k + r) := by
  induction l generalizing i j with
  | nil => simp [FreeCell]
  | cons s l ih =>
    rcases hs with ⟨-, hpos, hrest⟩
    simp only [FreeCell, total_cons, At]
    by_cases hj : j < s.length
    · -- the cell is in the first span
      rw [if_pos hj]
      constructor
      · intro hfree
        refine ⟨by omega, fun k r hat hin => ?_⟩
        rcases hat with ⟨-, rfl⟩ | ⟨hle, -⟩
        · simp at hfree
        · omega
      · intro hfree
        rcases s with ⟨m, used⟩
        cases used with
        | false => rfl
        | true => exact absurd ⟨Nat.zero_le j, by simpa using hj⟩ (hfree.2 0 m (.inl ⟨rfl, rfl⟩))
    · rw [if_neg hj, ih hrest]
      constructor
      · intro hfree
        refine ⟨by omega, fun k r hat hin => ?_⟩
        rcases hat with ⟨rfl, rfl⟩ | ⟨hle, hat⟩
        · simp only at hj hin
          omega
        · exact hfree.2 _ r hat (by omega)
      · intro hfree
        refine ⟨by omega, fun k r hat hin => ?_⟩
        refine hfree.2 (k + s.length) r (.inr ⟨by omega, ?_⟩) (by omega)
        rwa [Nat.add_sub_cancel]

theorem le_leading_iff (hs : Seg h i l n) : r ≤ leading l ↔ ∀ j, j < r → FreeCell l j := by
  induction l generalizing i r with
  | nil =>
    simp only [leading, FreeCell, imp_false, not_lt, Nat.le_zero]
    constructor
    · intro hr j
      omega
    · intro hr
      exact Nat.le_zero.mp (hr 0)
  | cons s l ih =>
    rcases hs with ⟨-, hpos, hrest⟩
    cases hused : s.used with
    | true =>
      rw [leading_of_used hused]
      constructor
      · intro hr j hj
        omega
      · intro hfree
        by_contra hr
        -- the first cell is used
        have hzero := hfree 0 (by omega)
        rw [FreeCell, if_pos hpos, hused] at hzero
        cases hzero
    | false =>
      rw [leading_of_free hused]
      constructor
      · intro hr j hj
        rw [FreeCell]
        split
        · exact hused
        · exact (ih hrest).mp (show r - s.length ≤ leading l by omega) _ (by omega)
      · intro hfree
        -- the cells behind the first span
        have hle : r - s.length ≤ leading l := by
          refine (ih hrest).mpr fun j hj => ?_
          have hcell := hfree (j + s.length) (by omega)
          rwa [FreeCell, if_neg (by omega), Nat.add_sub_cancel] at hcell
        omega

/-- There is room for `r` cells exactly when some `r` consecutive cells are free. -/
theorem le_room_iff (hs : Seg h i l n) (hr : 0 < r) :
    r ≤ room l ↔ ∃ k, ∀ j, k ≤ j → j < k + r → FreeCell l j := by
  induction l generalizing i with
  | nil =>
    simp only [room, FreeCell, imp_false, not_lt]
    constructor
    · intro hle
      omega
    · intro hfree
      rcases hfree with ⟨k, hk⟩
      have hle := hk k le_rfl
      omega
  | cons s l ih =>
    have hleading := le_leading_iff (r := r) hs
    rcases hs with ⟨-, hpos, hrest⟩
    rw [room, le_max_iff, ih hrest]
    constructor
    · intro hor
      rcases hor with hlead | ⟨k, hk⟩
      · refine ⟨0, fun j _ hj => hleading.mp hlead j (by omega)⟩
      · refine ⟨k + s.length, fun j h1 h2 => ?_⟩
        rw [FreeCell, if_neg (by omega)]
        exact hk _ (by omega) (by omega)
    · intro hfree
      rcases hfree with ⟨k, hk⟩
      by_cases hks : k < s.length
      · -- the run begins in the first span, so the cells before it are free too
        have hused : s.used = false := by
          have hcell := hk k le_rfl (by omega)
          rwa [FreeCell, if_pos hks] at hcell
        refine .inl (hleading.mpr fun j hj => ?_)
        by_cases hjs : j < s.length
        · rw [FreeCell, if_pos hjs]
          exact hused
        · exact hk j (by omega) (by omega)
      · refine .inr ⟨k - s.length, fun j h1 h2 => ?_⟩
        have hcell := hk (j + s.length) (by omega) (by omega)
        rwa [FreeCell, if_neg (by omega), Nat.add_sub_cancel] at hcell

end Spans
