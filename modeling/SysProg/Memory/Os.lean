import Mathlib.Logic.Function.Basic
import Mathlib.Tactic
import SysProg.Lib.ByteMemory
import SysProg.Memory.Config

/-!
# The page requests of `task5-memory/src/common.c`

`request_page` and `release_page` are `mmap` and `munmap`. Their history determines
which addresses are mapped. A `Kernel` answers a request from that history; it may
refuse (`0`), but an answer is page aligned and never overlaps what is still mapped.
A refusal is an event too, so a kernel can refuse a request and grant the next one.
Fresh pages are zeroed: the model creates every structure on a new page with zeros.
-/

namespace SysProg.Memory

/-- The bytes of the pages that a mapping of `size` bytes occupies. -/
def pageExtent (size : ℕ) : ℕ :=
  (size + (pageSize - 1)) / pageSize * pageSize

/-- A mapping of `size` bytes at `base`. -/
structure Range where
  base : ℕ
  size : ℕ
deriving DecidableEq, Repr

/-- The address lies on a page of the mapping. -/
def Range.Has (r : Range) (x : ℕ) : Prop :=
  r.base ≤ x ∧ x < r.base + pageExtent r.size

instance (r : Range) (x : ℕ) : Decidable (r.Has x) :=
  inferInstanceAs (Decidable (_ ∧ _))

/-- The block of `size` bytes at `p` lies on the pages of the mapping. -/
def Range.Holds (r : Range) (p size : ℕ) : Prop :=
  r.base ≤ p ∧ p + size ≤ r.base + pageExtent r.size

theorem Range.Holds.has {r : Range} {p size x : ℕ} (h : r.Holds p size) (hx : p ≤ x)
    (hlt : x < p + size) : r.Has x :=
  ⟨h.1.trans hx, lt_of_lt_of_le hlt h.2⟩

inductive OsEvent where
  | map (r : Range)
  | unmap (r : Range)
  | refuse (size : ℕ)
deriving DecidableEq, Repr

/-- The address is mapped after the events of the history, latest first. -/
def Mapped : List OsEvent → ℕ → Prop
  | [], _ => False
  | .map r :: os, x => r.Has x ∨ Mapped os x
  | .unmap r :: os, x => ¬ r.Has x ∧ Mapped os x
  | .refuse _ :: os, x => Mapped os x

instance Mapped.decidable : ∀ (os : List OsEvent) (x : ℕ), Decidable (Mapped os x)
  | [], _ => inferInstanceAs (Decidable False)
  | .map r :: os, x =>
      have := Mapped.decidable os x
      inferInstanceAs (Decidable (r.Has x ∨ Mapped os x))
  | .unmap r :: os, x =>
      have := Mapped.decidable os x
      inferInstanceAs (Decidable (¬ r.Has x ∧ Mapped os x))
  | .refuse _ :: os, x => Mapped.decidable os x

/-- The answers of `mmap`, with `0` for a failure. -/
structure Kernel where
  mmap : List OsEvent → ℕ → ℕ
  aligned : ∀ os size, pageSize ∣ mmap os size
  fresh : ∀ os size x, mmap os size ≠ 0 → Range.Has ⟨mmap os size, size⟩ x → ¬ Mapped os x

/-- No request of the kernel fails. -/
def Kernel.Succeeds (kernel : Kernel) : Prop :=
  ∀ os size, kernel.mmap os size ≠ 0

/-- `request_page`: the new page, or null, and the history with it. -/
def requestPage (kernel : Kernel) (os : List OsEvent) (size : ℕ) : ℕ × List OsEvent :=
  let pointer := kernel.mmap os size
  (pointer, if pointer = 0 then .refuse size :: os else .map ⟨pointer, size⟩ :: os)

/-- `align_up` for an alignment that is a power of two. The sizes it is called with are
those of mappings, so the sum does not wrap. -/
def alignUp (address alignment : ℕ) : ℕ :=
  (address + (alignment - 1)) / alignment * alignment

/-- `release_page`. -/
def releasePage (os : List OsEvent) (pointer size : ℕ) : List OsEvent :=
  .unmap ⟨pointer, size⟩ :: os

theorem le_pageExtent (size : ℕ) : size ≤ pageExtent size := by
  simp only [pageExtent, pageSize]
  omega

theorem pageExtent_pos {size : ℕ} (h : 0 < size) : 0 < pageExtent size :=
  lt_of_lt_of_le h (le_pageExtent size)

theorem pageExtent_dvd (size : ℕ) : 4096 ∣ pageExtent size :=
  Dvd.intro_left _ rfl

/-! ## Regions of mapped memory -/

section Regions

variable {ι κ : Type*} [DecidableEq ι] [DecidableEq κ]

/-- Named mappings: page aligned, mapped, and no two of them overlap. -/
structure RegionsOk (region : ι → Option Range) (os : List OsEvent) : Prop where
  aligned : ∀ i r, region i = some r → pageSize ∣ r.base
  nonzero : ∀ i r, region i = some r → r.base ≠ 0
  mapped : ∀ i r x, region i = some r → r.Has x → Mapped os x
  apart : ∀ i j r t x, region i = some r → region j = some t → r.Has x → t.Has x → i = j

variable {kernel : Kernel} {region region' : ι → Option Range} {os os' : List OsEvent}

omit [DecidableEq ι] [DecidableEq κ] in
/-- Blocks of different mappings are disjoint. -/
theorem RegionsOk.disjoint (h : RegionsOk region os) {i j : ι} {r t : Range} {p q m n : ℕ}
    (hi : region i = some r) (hj : region j = some t) (hne : i ≠ j) (hr : r.Holds p m)
    (ht : t.Holds q n) (hm : 0 < m) (hn : 0 < n) : p + m ≤ q ∨ q + n ≤ p := by
  by_contra hover
  -- the later of the two starts lies in both blocks
  have h1 := hr.has (x := max p q) (by omega) (by omega)
  have h2 := ht.has (x := max p q) (by omega) (by omega)
  exact hne (h.apart i j r t _ hi hj h1 h2)

omit [DecidableEq κ] in
/-- A region after one has been set is this one, or it was there before. -/
theorem update_some_cases {i j : ι} {r t : Range}
    (h : Function.update region i (some r) j = some t) :
    j = i ∧ t = r ∨ j ≠ i ∧ region j = some t := by
  by_cases hji : j = i
  · subst hji
    rw [Function.update_self] at h
    exact .inl ⟨rfl, (Option.some.inj h).symm⟩
  · rw [Function.update_of_ne hji] at h
    exact .inr ⟨hji, h⟩

/-- A new mapping is apart from all the others. -/
theorem RegionsOk.add (h : RegionsOk region os) (i : ι) (size : ℕ)
    (hpage : kernel.mmap os size ≠ 0) :
    RegionsOk (Function.update region i (some ⟨kernel.mmap os size, size⟩))
      (.map ⟨kernel.mmap os size, size⟩ :: os) := by
  refine ⟨?_, ?_, ?_, ?_⟩
  · intro j r hj
    rcases update_some_cases hj with ⟨-, rfl⟩ | ⟨-, hj⟩
    · exact kernel.aligned os size
    · exact h.aligned j r hj
  · intro j r hj
    rcases update_some_cases hj with ⟨-, rfl⟩ | ⟨-, hj⟩
    · exact hpage
    · exact h.nonzero j r hj
  · intro j r x hj hx
    rcases update_some_cases hj with ⟨-, rfl⟩ | ⟨-, hj⟩
    · exact .inl hx
    · exact .inr (h.mapped j r x hj hx)
  · -- an address of the new mapping was not mapped before
    intro j k r t x hj hk hr ht
    rcases update_some_cases hj with ⟨hji, rfl⟩ | ⟨hji, hj'⟩
    · rcases update_some_cases hk with ⟨hki, rfl⟩ | ⟨hki, hk'⟩
      · exact hji.trans hki.symm
      · exact absurd (h.mapped k t x hk' ht) (kernel.fresh os size x hpage hr)
    · rcases update_some_cases hk with ⟨hki, rfl⟩ | ⟨hki, hk'⟩
      · exact absurd (h.mapped j r x hj' hr) (kernel.fresh os size x hpage ht)
      · exact h.apart j k r t x hj' hk' hr ht

omit [DecidableEq ι] [DecidableEq κ] in
/-- A request that is refused changes no mapping. -/
theorem RegionsOk.refuse (h : RegionsOk region os) (size : ℕ) :
    RegionsOk region (.refuse size :: os) :=
  ⟨h.aligned, h.nonzero, h.mapped, h.apart⟩

omit [DecidableEq ι] [DecidableEq κ] in
/-- Releasing no page at all. -/
theorem RegionsOk.unmap_empty (h : RegionsOk region os) {r : Range} (hempty : ∀ x, ¬ r.Has x) :
    RegionsOk region (.unmap r :: os) :=
  ⟨h.aligned, h.nonzero, fun i t x hi hx => ⟨hempty x, h.mapped i t x hi hx⟩, h.apart⟩

/-- Releasing one mapping keeps the others mapped. -/
theorem RegionsOk.remove (h : RegionsOk region os) {i : ι} {r : Range} (hi : region i = some r) :
    RegionsOk (Function.update region i none) (.unmap r :: os) := by
  have hcases : ∀ j t, Function.update region i none j = some t → j ≠ i ∧ region j = some t := by
    intro j t hj
    by_cases hji : j = i
    · subst hji
      simp at hj
    · rw [Function.update_of_ne hji] at hj
      exact ⟨hji, hj⟩
  refine ⟨?_, ?_, ?_, ?_⟩
  · intro j t hj
    exact h.aligned j t (hcases j t hj).2
  · intro j t hj
    exact h.nonzero j t (hcases j t hj).2
  · intro j t x hj hx
    have hold := hcases j t hj
    refine ⟨fun hr => hold.1 ?_, h.mapped j t x hold.2 hx⟩
    exact h.apart j i t r x hold.2 hi hx hr
  · intro j k t u x hj hk
    exact h.apart j k t u x (hcases j t hj).2 (hcases k u hk).2

/-- What stays and what goes of a mapping whose last pages are released make up the mapping. -/
theorem pageExtent_cut {size old : ℕ} (hle : size + pageSize ≤ old) :
    pageExtent size + pageExtent (old - pageExtent size) = pageExtent old := by
  simp only [pageExtent, pageSize] at hle ⊢
  omega

/-- The pages at the end of a mapping are released. -/
theorem RegionsOk.shrink (h : RegionsOk region os) {i : ι} {r : Range} {size : ℕ}
    (hi : region i = some r) (hle : size + pageSize ≤ r.size) :
    RegionsOk (Function.update region i (some ⟨r.base, size⟩))
      (.unmap ⟨r.base + pageExtent size, r.size - pageExtent size⟩ :: os) := by
  have hcut := pageExtent_cut hle
  have hstays : ∀ x, Range.Has ⟨r.base, size⟩ x →
      r.Has x ∧ ¬ Range.Has ⟨r.base + pageExtent size, r.size - pageExtent size⟩ x := by
    intro x hx
    simp only [Range.Has] at hx ⊢
    omega
  have hgoes : ∀ x, Range.Has ⟨r.base + pageExtent size, r.size - pageExtent size⟩ x → r.Has x := by
    intro x hx
    simp only [Range.Has] at hx ⊢
    omega
  refine ⟨?_, ?_, ?_, ?_⟩
  · intro j t hj
    rcases update_some_cases hj with ⟨-, rfl⟩ | ⟨-, hj⟩
    · exact h.aligned i r hi
    · exact h.aligned j t hj
  · intro j t hj
    rcases update_some_cases hj with ⟨-, rfl⟩ | ⟨-, hj⟩
    · exact h.nonzero i r hi
    · exact h.nonzero j t hj
  · -- the released pages were of this region only
    intro j t x hj hx
    rcases update_some_cases hj with ⟨-, rfl⟩ | ⟨hji, hj⟩
    · exact ⟨(hstays x hx).2, h.mapped i r x hi (hstays x hx).1⟩
    · exact ⟨fun hr => hji (h.apart j i t r x hj hi hx (hgoes x hr)), h.mapped j t x hj hx⟩
  · intro j k t u x hj hk ht hu
    rcases update_some_cases hj with ⟨hji, rfl⟩ | ⟨hji, hj'⟩
    · rcases update_some_cases hk with ⟨hki, rfl⟩ | ⟨hki, hk'⟩
      · exact hji.trans hki.symm
      · exact absurd (h.apart k i u r x hk' hi hu (hstays x ht).1) hki
    · rcases update_some_cases hk with ⟨hki, rfl⟩ | ⟨hki, hk'⟩
      · exact absurd (h.apart j i t r x hj' hi ht (hstays x hu).1) hji
      · exact h.apart j k t u x hj' hk' ht hu

omit [DecidableEq κ] in
/-- A mapping is replaced by a new one. -/
theorem RegionsOk.replace (h : RegionsOk region os) {i : ι} {r : Range} (hi : region i = some r)
    (size : ℕ) (hpage : kernel.mmap os size ≠ 0) :
    RegionsOk (Function.update region i (some ⟨kernel.mmap os size, size⟩))
      (.unmap r :: .map ⟨kernel.mmap os size, size⟩ :: os) := by
  have hadd := h.add i size hpage
  refine ⟨hadd.aligned, hadd.nonzero, ?_, hadd.apart⟩
  intro j t x hj hx
  refine ⟨fun hr => ?_, hadd.mapped j t x hj hx⟩
  by_cases hji : j = i
  · -- the new mapping has no page of the old one
    subst hji
    rw [Function.update_self] at hj
    rcases Option.some.inj hj with rfl
    exact kernel.fresh os size x hpage hx (h.mapped j r x hi hr)
  · rw [Function.update_of_ne hji] at hj
    exact hji (h.apart j i t r x hj hi hx hr)

omit [DecidableEq ι] [DecidableEq κ] in
/-- A part of the regions, under other names. -/
theorem RegionsOk.comp (h : RegionsOk region os) {f : κ → ι} (hf : Function.Injective f) :
    RegionsOk (region ∘ f) os := by
  refine ⟨?_, ?_, ?_, ?_⟩
  · intro j
    exact h.aligned (f j)
  · intro j
    exact h.nonzero (f j)
  · intro j
    exact h.mapped (f j)
  · intro j k r t x hj hk hr ht
    exact hf (h.apart (f j) (f k) r t x hj hk hr ht)

/-- The regions after some requests, those that were granted under a new name each. -/
inductive Grown (kernel : Kernel) (region : ι → Option Range) (os : List OsEvent) :
    (ι → Option Range) → List OsEvent → Prop where
  | refl : Grown kernel region os region os
  | add {region' : ι → Option Range} {os' : List OsEvent} (i : ι) (size : ℕ) :
      Grown kernel region os region' os' → kernel.mmap os' size ≠ 0 →
      Grown kernel region os (Function.update region' i (some ⟨kernel.mmap os' size, size⟩))
        (.map ⟨kernel.mmap os' size, size⟩ :: os')
  | refuse {region' : ι → Option Range} {os' : List OsEvent} (size : ℕ) :
      Grown kernel region os region' os' → kernel.mmap os' size = 0 →
      Grown kernel region os region' (.refuse size :: os')

theorem Grown.of_eq (kernel : Kernel) (hregion : region' = region)
    (hos : os' = os) : Grown kernel region os region' os' := by
  rw [hregion, hos]
  exact .refl

theorem Grown.regionsOk (h : Grown kernel region os region' os') (hok : RegionsOk region os) :
    RegionsOk region' os' := by
  induction h with
  | refl => exact hok
  | add i size _ hpage ih => exact ih.add i size hpage
  | refuse size _ _ ih => exact ih.refuse size

omit [DecidableEq κ] in
/-- What was mapped stays mapped. -/
theorem Grown.mapped (h : Grown kernel region os region' os') {x : ℕ} (hx : Mapped os x) :
    Mapped os' x := by
  induction h with
  | refl => exact hx
  | add i size _ hpage ih => exact .inr ih
  | refuse size _ _ ih => exact ih

omit [DecidableEq κ] in
/-- Requests unmap nothing. -/
theorem Grown.events (h : Grown kernel region os region' os') :
    ∃ events, os' = events ++ os ∧ ∀ r, OsEvent.unmap r ∉ events := by
  induction h with
  | refl => exact ⟨[], rfl, by simp⟩
  | add i size _ hpage ih | refuse size _ _ ih =>
    rcases ih with ⟨events, rfl, hno⟩
    exact ⟨_ :: events, rfl, by simpa using hno⟩

omit [DecidableEq κ] in
/-- A name in use stays in use. -/
theorem Grown.isSome (h : Grown kernel region os region' os') {i : ι}
    (hi : (region i).isSome = true) : (region' i).isSome = true := by
  induction h with
  | refl => exact hi
  | add j size _ hpage ih =>
    by_cases hij : i = j
    · rw [hij, Function.update_self]
      rfl
    · rw [Function.update_of_ne hij]
      exact ih
  | refuse size _ _ ih => exact ih

theorem Grown.inl {others : κ → Option Range} (h : Grown kernel region os region' os') :
    Grown kernel (Sum.elim region others) os (Sum.elim region' others) os' := by
  induction h with
  | refl => exact .refl
  | add i size _ hpage ih =>
    have hadd := ih.add (.inl i) size hpage
    rwa [Sum.update_elim_inl] at hadd
  | refuse size _ hpage ih => exact ih.refuse size hpage

theorem Grown.inr {others : κ → Option Range} (h : Grown kernel region os region' os') :
    Grown kernel (Sum.elim others region) os (Sum.elim others region') os' := by
  induction h with
  | refl => exact .refl
  | add i size _ hpage ih =>
    have hadd := ih.add (.inr i) size hpage
    rwa [Sum.update_elim_inr] at hadd
  | refuse size _ hpage ih => exact ih.refuse size hpage

end Regions

/-! ## No page without a name -/

section Cover

variable {ι : Type*} [DecidableEq ι] {region : ι → Option Range} {os : List OsEvent}
  {i : ι} {r : Range}

/-- Every address that is mapped lies in one of the named mappings. -/
def RegionsCover (region : ι → Option Range) (os : List OsEvent) : Prop :=
  ∀ x, Mapped os x → ∃ i r, region i = some r ∧ r.Has x

/-- The other mappings keep their names. -/
theorem cover_of_ne {j : ι} {t : Range} {x : ℕ} {new : Option Range} (hji : j ≠ i)
    (hj : region j = some t) (ht : t.Has x) :
    ∃ k u, Function.update region i new k = some u ∧ u.Has x :=
  ⟨j, t, by rw [Function.update_of_ne hji, hj], ht⟩

/-- A new mapping gets a name that is not in use. -/
theorem RegionsCover.add (h : RegionsCover region os) (hfree : region i = none) :
    RegionsCover (Function.update region i (some r)) (.map r :: os) := by
  intro x hx
  rcases hx with hx | hx
  · exact ⟨i, r, Function.update_self .., hx⟩
  · rcases h x hx with ⟨j, t, hj, ht⟩
    refine cover_of_ne (fun hji => ?_) hj ht
    rw [hji, hfree] at hj
    cases hj

theorem RegionsCover.remove (h : RegionsCover region os) (hi : region i = some r) :
    RegionsCover (Function.update region i none) (.unmap r :: os) := by
  intro x hx
  rcases h x hx.2 with ⟨j, t, hj, ht⟩
  refine cover_of_ne (fun hji => hx.1 ?_) hj ht
  rw [hji, hi] at hj
  exact Option.some.inj hj ▸ ht

theorem RegionsCover.shrink {size : ℕ} (h : RegionsCover region os) (hi : region i = some r)
    (hle : size + pageSize ≤ r.size) :
    RegionsCover (Function.update region i (some ⟨r.base, size⟩))
      (.unmap ⟨r.base + pageExtent size, r.size - pageExtent size⟩ :: os) := by
  have hcut := pageExtent_cut hle
  intro x hx
  rcases h x hx.2 with ⟨j, t, hj, ht⟩
  by_cases hji : j = i
  · -- what is not released is still in the mapping
    subst hji
    rcases Option.some.inj (hi.symm.trans hj) with rfl
    refine ⟨j, ⟨r.base, size⟩, Function.update_self .., ?_⟩
    have hgone := hx.1
    simp only [Range.Has] at hgone ht ⊢
    omega
  · exact cover_of_ne hji hj ht

theorem RegionsCover.replace {new : Range} (h : RegionsCover region os) (hi : region i = some r) :
    RegionsCover (Function.update region i (some new)) (.unmap r :: .map new :: os) := by
  intro x hx
  rcases hx with ⟨hgone, hx | hx⟩
  · exact ⟨i, new, Function.update_self .., hx⟩
  · rcases h x hx with ⟨j, t, hj, ht⟩
    refine cover_of_ne (fun hji => hgone ?_) hj ht
    rw [hji, hi] at hj
    exact Option.some.inj hj ▸ ht

end Cover

/-! ## A kernel that always finds room -/

/-- The end of everything that was ever mapped, on a page boundary. -/
def top : List OsEvent → ℕ
  | [] => pageSize
  | .map r :: os => max (top os) (pageExtent (r.base + pageExtent r.size))
  | .unmap _ :: os => top os
  | .refuse _ :: os => top os

theorem lt_top_of_mapped {os : List OsEvent} {x : ℕ} (h : Mapped os x) : x < top os := by
  induction os with
  | nil => exact absurd h id
  | cons e os ih =>
    cases e with
    | map r =>
      simp only [top, lt_max_iff]
      rcases h with h | h
      · have := le_pageExtent (r.base + pageExtent r.size)
        exact .inr (lt_of_lt_of_le h.2 this)
      · exact .inl (ih h)
    | unmap => exact ih h.2
    | refuse => exact ih h

theorem top_aligned (os : List OsEvent) : pageSize ∣ top os := by
  induction os with
  | nil => exact dvd_refl _
  | cons e os ih =>
    cases e with
    | map r =>
      simp only [top]
      rcases max_choice (top os) (pageExtent (r.base + pageExtent r.size)) with h | h
      · rw [h]
        exact ih
      · rw [h]
        exact pageExtent_dvd _
    | unmap => exact ih
    | refuse => exact ih

theorem top_pos (os : List OsEvent) : 0 < top os := by
  induction os with
  | nil => decide
  | cons e os ih =>
    cases e with
    | map => exact lt_of_lt_of_le ih (le_max_left _ _)
    | unmap => exact ih
    | refuse => exact ih

/-- Every mapping is placed behind all earlier ones. -/
def bumpKernel : Kernel where
  mmap os _ := top os
  aligned os _ := top_aligned os
  fresh os size x _ hx hmapped := by
    have h1 := lt_top_of_mapped hmapped
    have h2 : top os ≤ x := hx.1
    omega

theorem bumpKernel_succeeds : bumpKernel.Succeeds := by
  intro os size
  exact (top_pos os).ne'

/-- The requests that were granted so far. -/
def granted : List OsEvent → ℕ
  | [] => 0
  | .map _ :: os => granted os + 1
  | .unmap _ :: os => granted os
  | .refuse _ :: os => granted os

/-- The same kernel, but it refuses all requests after the first `n` that it has granted. -/
def limitKernel (n : ℕ) : Kernel where
  mmap os size := if granted os < n then bumpKernel.mmap os size else 0
  aligned os size := by
    split
    · exact bumpKernel.aligned os size
    · exact dvd_zero _
  fresh os size x hpage hx := by
    split at hpage
    · rename_i hlt
      rw [if_pos hlt] at hx
      exact bumpKernel.fresh os size x hpage hx
    · exact absurd rfl hpage

end SysProg.Memory
