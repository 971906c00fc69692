import Mathlib.Tactic

/-!
# Ordered maps

`OrdMap κ ν` models `std::map<κ, ν>` (and, with `ν = Unit`, `std::set<κ>`): the
entries in iteration order, which is the order of the keys. The strict order of
the entries is a field, so no key is ever listed twice.
-/

universe u v

/-- A finite map listed in strictly increasing key order. -/
structure OrdMap (κ : Type u) (ν : Type v) [LinearOrder κ] where
  entries : List (κ × ν)
  sorted : entries.Pairwise fun a b => a.1 < b.1

namespace OrdMap

variable {κ : Type u} {ν : Type v} [LinearOrder κ] {m : OrdMap κ ν} {k : κ} {v : ν}

/-- The entries after `m[k] = v`: an existing entry is overwritten in place, a new
one goes in front of the first larger key. -/
def insertEntry (k : κ) (v : ν) : List (κ × ν) → List (κ × ν)
  | [] => [(k, v)]
  | e :: es =>
      if k < e.1 then (k, v) :: e :: es
      else if k = e.1 then (k, v) :: es
      else e :: insertEntry k v es

theorem mem_insertEntry {es : List (κ × ν)} {e : κ × ν}
    (he : e ∈ insertEntry k v es) : e = (k, v) ∨ e ∈ es := by
  induction es with
  | nil => simpa [insertEntry] using he
  | cons e₀ es ih =>
    simp only [insertEntry] at he
    split_ifs at he
    · simpa using he
    · rcases List.mem_cons.mp he with h | h
      · exact .inl h
      · exact .inr (List.mem_cons_of_mem _ h)
    · rcases List.mem_cons.mp he with h | h
      · exact .inr (by simp [h])
      · rcases ih h with h | h
        · exact .inl h
        · exact .inr (List.mem_cons_of_mem _ h)

theorem insertEntry_sorted {es : List (κ × ν)} (hs : es.Pairwise fun a b => a.1 < b.1) :
    (insertEntry k v es).Pairwise fun a b => a.1 < b.1 := by
  induction es with
  | nil => simp [insertEntry]
  | cons e₀ es ih =>
    rcases List.pairwise_cons.mp hs with ⟨hlt, hs'⟩
    simp only [insertEntry]
    split_ifs with h1 h2
    · refine List.pairwise_cons.mpr ⟨fun e he => ?_, hs⟩
      rcases List.mem_cons.mp he with rfl | he
      · exact h1
      · exact h1.trans (hlt e he)
    · exact List.pairwise_cons.mpr ⟨fun e he => by simpa [h2] using hlt e he, hs'⟩
    · refine List.pairwise_cons.mpr ⟨fun e he => ?_, ih hs'⟩
      rcases mem_insertEntry he with rfl | he
      · exact lt_of_le_of_ne (not_lt.mp h1) (Ne.symm h2)
      · exact hlt e he

/-- The map without entries. -/
def empty : OrdMap κ ν := ⟨[], .nil⟩

/-- `m[k] = v`. -/
def insert (m : OrdMap κ ν) (k : κ) (v : ν) : OrdMap κ ν :=
  ⟨insertEntry k v m.entries, insertEntry_sorted m.sorted⟩

/-- The value stored under `k`. -/
def find? (m : OrdMap κ ν) (k : κ) : Option ν :=
  (m.entries.find? fun e => e.1 = k).map Prod.snd

/-- `m.count(k) > 0`. -/
def contains (m : OrdMap κ ν) (k : κ) : Bool :=
  (m.find? k).isSome

/-- The keys in iteration order. -/
def keys (m : OrdMap κ ν) : List κ :=
  m.entries.map Prod.fst

theorem keys_nodup (m : OrdMap κ ν) : m.keys.Nodup := by
  rw [keys, List.Nodup, List.pairwise_map]
  exact m.sorted.imp ne_of_lt

theorem find?_eq_some :
    m.find? k = some v ↔ (k, v) ∈ m.entries := by
  rw [find?, Option.map_eq_some_iff]
  constructor
  · rintro ⟨e, he, rfl⟩
    have hk : e.1 = k := by simpa using List.find?_some he
    have hmem := List.mem_of_find?_eq_some he
    rwa [← hk]
  · intro hmem
    cases hf : m.entries.find? fun e => e.1 = k with
    | none =>
      rw [List.find?_eq_none] at hf
      exact absurd (by simp) (hf (k, v) hmem)
    | some e =>
      -- two entries with one key are one entry
      have he : e.1 = k := by simpa using List.find?_some hf
      have heq : e = (k, v) := by
        have hnd : (m.entries.map Prod.fst).Nodup := m.keys_nodup
        exact List.inj_on_of_nodup_map hnd (List.mem_of_find?_eq_some hf) hmem he
      exact ⟨e, rfl, by rw [heq]⟩

theorem mem_keys : k ∈ m.keys ↔ m.contains k = true := by
  rw [contains, Option.isSome_iff_exists, keys, List.mem_map]
  constructor
  · rintro ⟨⟨k', v⟩, he, rfl⟩
    exact ⟨v, find?_eq_some.mpr he⟩
  · rintro ⟨v, hv⟩
    exact ⟨(k, v), find?_eq_some.mp hv, rfl⟩

theorem find?_insertEntry (k : κ) (v : ν) (k' : κ) (es : List (κ × ν)) :
    (insertEntry k v es).find? (fun e => e.1 = k') =
      if k' = k then some (k, v) else es.find? fun e => e.1 = k' := by
  induction es with
  | nil => by_cases h : k' = k <;> simp [insertEntry, h, eq_comm]
  | cons e₀ es ih =>
    simp only [insertEntry]
    split_ifs with h1 h2 h3 h3 h3 <;> grind

@[simp] theorem find?_insert_self (m : OrdMap κ ν) (k : κ) (v : ν) :
    (m.insert k v).find? k = some v := by
  simp [find?, insert, find?_insertEntry]

@[simp] theorem find?_insert_of_ne (m : OrdMap κ ν) {k k' : κ} (v : ν) (h : k' ≠ k) :
    (m.insert k v).find? k' = m.find? k' := by
  simp [find?, insert, find?_insertEntry, h]

theorem find?_insert (m : OrdMap κ ν) (k k' : κ) (v : ν) :
    (m.insert k v).find? k' = if k' = k then some v else m.find? k' := by
  split
  · rename_i h
    rw [h, find?_insert_self]
  · rename_i h
    exact find?_insert_of_ne m v h

@[simp] theorem contains_insert (m : OrdMap κ ν) (k k' : κ) (v : ν) :
    (m.insert k v).contains k' = (decide (k' = k) || m.contains k') := by
  by_cases h : k' = k
  · subst h; simp [contains]
  · simp [contains, h]

@[simp] theorem contains_empty (k : κ) : (empty : OrdMap κ ν).contains k = false := rfl

theorem mem_keys_iff_find? : k ∈ m.keys ↔ ∃ v, m.find? k = some v := by
  rw [mem_keys, contains, Option.isSome_iff_exists]

/-- `m.erase(k)`. -/
def erase (m : OrdMap κ ν) (k : κ) : OrdMap κ ν :=
  ⟨m.entries.filter fun e => e.1 ≠ k, m.sorted.filter _⟩

theorem find?_erase (m : OrdMap κ ν) (k k' : κ) :
    (m.erase k).find? k' = if k' = k then none else m.find? k' := by
  ext v
  rw [find?_eq_some, erase, List.mem_filter]
  split
  · rename_i h
    simp [h]
  · rename_i h
    simp [h, find?_eq_some]

/-- A map is determined by what it finds. -/
theorem ext_find? {m m' : OrdMap κ ν} (h : ∀ k, m.find? k = m'.find? k) : m = m' := by
  have hmem : ∀ e, e ∈ m.entries ↔ e ∈ m'.entries := by
    rintro ⟨k, v⟩
    rw [← find?_eq_some, ← find?_eq_some, h k]
  -- both lists hold the same entries in the order of their keys
  have hne : ∀ {l : List (κ × ν)}, (l.Pairwise fun a b => a.1 < b.1) → l.Nodup := fun hl =>
    hl.imp fun hlt heq => absurd (congrArg Prod.fst heq) (ne_of_lt hlt)
  have hperm : m.entries.Perm m'.entries :=
    (List.perm_ext_iff_of_nodup (hne m.sorted) (hne m'.sorted)).mpr hmem
  have hentries : m.entries = m'.entries := by
    refine hperm.eq_of_pairwise ?_ m.sorted m'.sorted
    intro a b _ _ hab hba
    exact absurd (hab.trans hba) (lt_irrefl _)
  cases m
  cases m'
  simpa using hentries

/-- Removing what was not there before it was added. -/
theorem erase_insert (v : ν) (h : m.find? k = none) :
    (m.insert k v).erase k = m := by
  refine ext_find? fun k' => ?_
  rw [find?_erase, find?_insert]
  split
  · rename_i heq
    rw [heq, h]
  · rfl

/-- The list of keys is determined by which keys there are. -/
theorem keys_eq_of_mem_iff {μ : Type*} {m' : OrdMap κ μ}
    (h : ∀ k, k ∈ m.keys ↔ k ∈ m'.keys) : m.keys = m'.keys := by
  have hperm : m.keys.Perm m'.keys :=
    (List.perm_ext_iff_of_nodup m.keys_nodup m'.keys_nodup).mpr h
  refine hperm.eq_of_pairwise ?_ (List.pairwise_map.mpr m.sorted)
    (List.pairwise_map.mpr m'.sorted)
  intro a b _ _ hab hba
  exact absurd (hab.trans hba) (lt_irrefl _)

end OrdMap
