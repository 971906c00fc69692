import Mathlib.Tactic
import SysProg.FileIo.MemFs

/-!
# `impl::readdir` against `impl::getattr`

`readdir` finds the entries of a directory by comparing full paths with the query
path. It checks the bytes of the query path and that no slash comes later, but not
that the byte right behind the query path is a slash. An entry `/ab` of the root
therefore also shows up in the listing of `/a`, with its first extra byte cut off.

* `Inv` — stored paths are normalized, and no path is a file and a directory;
* `mem_listing` — what the two loops let through;
* `listing_exact_iff` — in every reachable state the listing of a directory is
  right exactly when no such entry exists.
-/

namespace SysProg.MemFs

open Lts

variable {fs : Fs} {d : Path} {p : Path}

/-! ## Paths -/

/-- The names FUSE uses as path components. -/
structure IsName (n : Path) : Prop where
  ne_nil : n ≠ []
  no_slash : slash ∉ n
  no_nul : 0 ∉ n
  ne_dot : n ≠ dot
  ne_dotDot : n ≠ dotDot

/-- The path of the entry `n` of directory `d`. -/
def join (d n : Path) : Path :=
  if d = root then root ++ n else d ++ slash :: n

/-- Normalized absolute paths: the root and names joined to it. -/
inductive Normalized : Path → Prop where
  | top : Normalized root
  | entry {d n : Path} : Normalized d → IsName n → Normalized (join d n)

/-- Two splits of one path at a last slash are the same split. -/
theorem last_slash_unique {q q' n n' : Path} (hn : slash ∉ n) (hn' : slash ∉ n')
    (h : q ++ slash :: n = q' ++ slash :: n') : q = q' ∧ n = n' := by
  rw [List.append_eq_append_iff] at h
  rcases h with ⟨m, hq', hm⟩ | ⟨m, hq, hm⟩
  · cases m with
    | nil => simp_all
    | cons =>
      have hmem : slash ∈ n := by
        simp only [List.cons_append, List.cons.injEq] at hm
        rw [hm.2]; simp
      exact absurd hmem hn
  · cases m with
    | nil => simp_all
    | cons =>
      have hmem : slash ∈ n' := by
        simp only [List.cons_append, List.cons.injEq] at hm
        rw [hm.2]; simp
      exact absurd hmem hn'

theorem getLast?_join {d n : Path} (hn : IsName n) : (join d n).getLast? ≠ some slash := by
  have hlast : ∀ l : Path, (l ++ n).getLast? ≠ some slash := by
    intro l hl
    rw [List.getLast?_append_of_ne_nil _ hn.ne_nil] at hl
    exact hn.no_slash (List.mem_of_getLast? hl)
  unfold join
  split_ifs
  · exact hlast root
  · have := hlast (d ++ [slash])
    simpa using this

theorem queryPath_join {d n : Path} (hn : IsName n) : queryPath (join d n) = join d n := by
  unfold queryPath
  rw [if_neg (getLast?_join hn)]

theorem join_ne_root {d n : Path} (hn : IsName n) : join d n ≠ root := by
  intro h
  have := getLast?_join (d := d) hn
  rw [h] at this
  exact this rfl

/-- The path of an entry is the query path of its directory, a slash and the name. -/
theorem join_eq (hd : Normalized d) (n : Path) :
    join d n = queryPath d ++ slash :: n := by
  cases hd with
  | top => rfl
  | entry hd' hn' =>
    rw [queryPath_join hn']
    exact if_neg (join_ne_root hn')

theorem Normalized.no_nul (hp : Normalized p) : 0 ∉ p := by
  induction hp with
  | top => decide
  | @entry d n _ hn ih =>
    have hslash : (0 : UInt8) ≠ slash := by decide
    unfold join
    split_ifs <;> simp [root, ih, hn.no_nul, hslash]

theorem Normalized.queryPath_no_nul (hp : Normalized p) : 0 ∉ queryPath p := by
  intro h
  unfold queryPath at h
  split_ifs at h
  · exact hp.no_nul (List.mem_of_mem_dropLast h)
  · exact hp.no_nul h

/-- A stored path is cut at its last slash into a query path and a name. -/
theorem Normalized.isName_of_eq {p q n : Path} (hp : Normalized p) (hroot : p ≠ root)
    (hn : slash ∉ n) (h : p = q ++ slash :: n) : IsName n := by
  cases hp with
  | top => exact absurd rfl hroot
  | entry hd hn' =>
    rw [join_eq hd] at h
    rcases last_slash_unique hn'.no_slash hn h with ⟨_, rfl⟩
    exact hn'

/-! ## The tests of the loops -/

/-- On a query path without zero bytes `strncmp` is the comparison of the first
bytes. -/
theorem strncmp_eq_zero {full query : Path} (hq : 0 ∉ query) :
    strncmp full query query.length = 0 ↔ full.take query.length = query := by
  induction query generalizing full with
  | nil => simp [strncmp]
  | cons b query ih =>
    have hb : b ≠ 0 := fun h => hq (by simp [h])
    have hq' : 0 ∉ query := fun h => hq (List.mem_cons_of_mem _ h)
    cases full with
    -- the shorter string ends with a zero byte, which differs
    | nil =>
      have hne : (0 : UInt8) ≠ b := Ne.symm hb
      have hpos : b.toNat ≠ 0 := fun h => hb (UInt8.toNat_inj.mp h)
      simp [strncmp, hne]
      omega
    | cons a full =>
      simp only [List.length_cons, strncmp, List.headD_cons, List.tail_cons, List.take_succ_cons,
        List.cons.injEq]
      by_cases hab : a = b
      · subst hab
        simp [hb, ih hq']
      · have hne : a.toNat ≠ b.toNat := fun h => hab (UInt8.toNat_inj.mp h)
        simp only [ne_eq, hab, not_false_eq_true, ↓reduceIte, false_and, iff_false]
        omega

theorem drop_query (query : Path) (c : UInt8) (rest : Path) :
    (query ++ c :: rest).drop (query.length + 1) = rest := by
  rw [show query ++ c :: rest = (query ++ [c]) ++ rest by simp]
  exact List.drop_left' (by simp)

/-- The listed paths continue the query path by one byte and a slash-free rest. -/
theorem isListed_iff {query full : Path} (hq : 0 ∉ query) :
    isListed query full = true ↔ ∃ c rest, full = query ++ c :: rest ∧ slash ∉ rest := by
  simp only [isListed, Bool.and_eq_true, Bool.not_eq_true', decide_eq_false_iff_not, not_le,
    beq_iff_eq, strncmp_eq_zero hq, List.contains_eq_mem]
  constructor
  · rintro ⟨⟨hlen, htake⟩, hslash⟩
    obtain ⟨c, hc⟩ : ∃ c, full[query.length]? = some c := by
      simp [hlen]
    refine ⟨c, full.drop (query.length + 1), ?_, hslash⟩
    have hdrop : full.drop query.length = c :: full.drop (query.length + 1) := by
      rcases List.getElem?_eq_some_iff.mp hc with ⟨hlt, rfl⟩
      exact List.drop_eq_getElem_cons hlt
    calc full = full.take query.length ++ full.drop query.length := (List.take_append_drop ..).symm
      _ = query ++ c :: full.drop (query.length + 1) := by rw [htake, hdrop]
  · rintro ⟨c, rest, rfl, hslash⟩
    refine ⟨⟨by simp, by simp⟩, ?_⟩
    rwa [drop_query]

/-! ## Reachable file systems -/

/-- FUSE creates an entry only at a normalized path that `getattr` does not know,
inside a path that `getattr` reports as a directory. -/
def FuseOk (call : Call) (fs : Fs) : Prop :=
  match call with
  | .mkdir path | .create path => ∃ d n, path = join d n ∧ Normalized d ∧ IsName n ∧
      (getattr fs path).1 = -ENOENT ∧ getattr fs d = (0, ⟨S_IFDIR ||| 0o755, 0⟩)
  | .write _ _ _ => True

/-- A path is stored, as a directory or as a file. -/
def Stored (fs : Fs) (p : Path) : Prop :=
  fs.directories.contains p = true ∨ fs.files.contains p = true

/-- `getattr` succeeds on the stored paths and fails with `ENOENT` on all others. -/
theorem getattr_spec (fs : Fs) (p : Path) :
    ((getattr fs p).1 = 0 ↔ Stored fs p) ∧ ((getattr fs p).1 = -ENOENT ↔ ¬ Stored fs p) := by
  unfold getattr Stored OrdMap.contains
  cases hf : fs.files.find? p with
  | some => simp [ENOENT]
  | none =>
    cases (fs.directories.find? p).isSome <;> simp [ENOENT]

/-- Stored paths are normalized, the root is a directory, and no path is both a
directory and a file. -/
structure Inv (fs : Fs) : Prop where
  normalized : ∀ p, Stored fs p → Normalized p
  root_dir : fs.directories.contains root = true
  apart : ∀ p, fs.directories.contains p = true → fs.files.contains p = false

theorem init_inv : Inv initial := by
  have hdir : ∀ p, initial.directories.contains p = true → p = root := by
    intro p hp
    simpa [initial] using hp
  refine ⟨fun p hp => ?_, rfl, fun p _ => rfl⟩
  rcases hp with hp | hp
  · rw [hdir p hp]; exact .top
  · cases hp

/-- Writing changes no path. -/
theorem files_contains_write (fs : Fs) (path : Path) (buffer : List UInt8) (offset : Int)
    (p : Path) : (write fs path buffer offset).2.files.contains p = fs.files.contains p := by
  unfold write
  cases hf : fs.files.find? path with
  | none => rfl
  | some =>
    simp only [OrdMap.contains_insert]
    by_cases h : p = path
    · subst h; simp [OrdMap.contains, hf]
    · simp [h]

theorem directories_write (fs : Fs) (path : Path) (buffer : List UInt8) (offset : Int) :
    (write fs path buffer offset).2.directories = fs.directories := by
  unfold write
  cases fs.files.find? path <;> rfl

theorem step_inv (call : Call) (fs fs' : Fs) (hinv : Inv fs) (hok : FuseOk call fs)
    (hnext : system.Next call fs fs') : Inv fs' := by
  rcases hnext with ⟨_, rfl⟩
  cases call with
  | mkdir =>
    rcases hok with ⟨d, n, rfl, hd, hn, hnew, _⟩
    have hfresh : ¬ Stored fs (join d n) := (getattr_spec fs _).2.mp hnew
    refine ⟨fun p hp => ?_, ?_, fun p hp => ?_⟩
    · rcases hp with hp | hp
      · simp only [apply, mkdir, OrdMap.contains_insert, Bool.or_eq_true, decide_eq_true_eq] at hp
        rcases hp with rfl | hp
        · exact .entry hd hn
        · exact hinv.normalized p (.inl hp)
      · exact hinv.normalized p (.inr hp)
    · simp [apply, mkdir, hinv.root_dir]
    · simp only [apply, mkdir, OrdMap.contains_insert, Bool.or_eq_true, decide_eq_true_eq] at hp
      rcases hp with rfl | hp
      · exact Bool.eq_false_iff.mpr fun h => hfresh (.inr h)
      · exact hinv.apart p hp
  | create =>
    rcases hok with ⟨d, n, rfl, hd, hn, hnew, _⟩
    have hfresh : ¬ Stored fs (join d n) := (getattr_spec fs _).2.mp hnew
    refine ⟨fun p hp => ?_, hinv.root_dir, fun p hp => ?_⟩
    · rcases hp with hp | hp
      · exact hinv.normalized p (.inl hp)
      · simp only [apply, create, OrdMap.contains_insert, Bool.or_eq_true, decide_eq_true_eq] at hp
        rcases hp with rfl | hp
        · exact .entry hd hn
        · exact hinv.normalized p (.inr hp)
    · have hne : p ≠ join d n := by
        rintro rfl
        exact hfresh (.inl hp)
      simp only [apply, create, OrdMap.contains_insert, Bool.or_eq_false_iff,
        decide_eq_false_iff_not]
      exact ⟨hne, hinv.apart p hp⟩
  -- a file is written only where there is one
  | write path buffer offset =>
    have hstored : ∀ p, Stored (apply fs (.write path buffer offset)) p ↔ Stored fs p := by
      intro p
      simp only [Stored, apply, directories_write, files_contains_write]
    refine ⟨fun p hp => hinv.normalized p ((hstored p).mp hp), ?_, fun p hp => ?_⟩
    · simp only [apply, directories_write, hinv.root_dir]
    · simp only [apply, directories_write, files_contains_write] at hp ⊢
      exact hinv.apart p hp

theorem reachable_inv (h : Reachable (system.guarded FuseOk) fs) : Inv fs :=
  h.invariant_guarded (fun _ h0 => h0 ▸ init_inv) step_inv

/-! ## The listing -/

/-- All stored paths but the root, in the order the loops visit them. -/
def visited (fs : Fs) : List Path :=
  fs.directories.keys.filter (· ≠ root) ++ fs.files.keys

theorem Inv.mem_visited (hinv : Inv fs) :
    p ∈ visited fs ↔ Stored fs p ∧ p ≠ root := by
  have hroot : fs.files.contains root = false := hinv.apart root hinv.root_dir
  simp only [visited, List.mem_append, List.mem_filter, OrdMap.mem_keys, Stored,
    decide_eq_true_eq]
  constructor
  · rintro (⟨hp, hne⟩ | hp)
    · exact ⟨.inl hp, hne⟩
    · refine ⟨.inr hp, ?_⟩
      rintro rfl
      simp [hroot] at hp
  · rintro ⟨hp | hp, hne⟩
    · exact .inl ⟨hp, hne⟩
    · exact .inr hp

theorem Inv.visited_nodup (hinv : Inv fs) : (visited fs).Nodup := by
  refine List.nodup_append.mpr ⟨fs.directories.keys_nodup.filter _, fs.files.keys_nodup, ?_⟩
  rintro p hp _ hf rfl
  have hdir := OrdMap.mem_keys.mp (List.mem_of_mem_filter hp)
  rw [OrdMap.mem_keys, hinv.apart p hdir] at hf
  cases hf

/-- The names passed to `filler`, apart from `"."` and `".."`. -/
def listing (fs : Fs) (d : Path) : List Path :=
  (readdir fs d).2.filter fun n => n ≠ dot ∧ n ≠ dotDot

/-- The listing as one pass over the visited paths. -/
theorem listing_eq (hd : fs.directories.contains d = true) :
    listing fs d = (((visited fs).filter fun p => isListed (queryPath d) p).map
      fun p => p.drop ((queryPath d).length + 1)).filter fun n => n ≠ dot ∧ n ≠ dotDot := by
  simp only [listing, readdir, hd, if_true, visited, List.filter_append, List.filter_filter]
  simp [dot, dotDot, Bool.and_comm]

/-- The listing of `d` is exact: the names of the entries `getattr` knows below
`d`, each once. -/
def ListingExact (fs : Fs) (d : Path) : Prop :=
  (listing fs d).Nodup ∧
  ∀ n, n ∈ listing fs d ↔ n ≠ [] ∧ slash ∉ n ∧ (getattr fs (join d n)).1 = 0

/-- No other entry of `d`'s parent has a name that goes on behind the name of `d`
with a byte and a rest other than `"."` and `".."`. -/
def NoLongerSibling (fs : Fs) (d : Path) : Prop :=
  ∀ c rest, Stored fs (queryPath d ++ c :: rest) → c ≠ slash → slash ∉ rest →
    rest = dot ∨ rest = dotDot

theorem mem_listing (hinv : Inv fs) (hd : fs.directories.contains d = true) {n : Path} :
    n ∈ listing fs d ↔ (∃ c, Stored fs (queryPath d ++ c :: n) ∧ queryPath d ++ c :: n ≠ root) ∧
      slash ∉ n ∧ n ≠ dot ∧ n ≠ dotDot := by
  have hq : 0 ∉ queryPath d := (hinv.normalized d (.inl hd)).queryPath_no_nul
  rw [listing_eq hd]
  simp only [List.mem_filter, List.mem_map, isListed_iff hq, hinv.mem_visited, decide_eq_true_eq]
  constructor
  · rintro ⟨⟨p, ⟨hp, c, rest, rfl, hslash⟩, rfl⟩, hdot⟩
    rw [drop_query] at hdot ⊢
    exact ⟨⟨c, hp⟩, hslash, hdot⟩
  · rintro ⟨⟨c, hp⟩, hslash, hdot⟩
    exact ⟨⟨_, ⟨hp, c, n, rfl, hslash⟩, drop_query ..⟩, hdot⟩

/-- Under the condition a listed name sits behind the query path and a slash. -/
theorem stored_join_of_mem_listing (hinv : Inv fs) {d n : Path}
    (hd : fs.directories.contains d = true) (hno : NoLongerSibling fs d)
    (hn : n ∈ listing fs d) : Stored fs (join d n) ∧ IsName n := by
  rcases (mem_listing hinv hd).mp hn with ⟨⟨c, hc, hne⟩, hslash, hdot, hdotDot⟩
  have hcs : c = slash := by
    by_contra hcs
    rcases hno c n hc hcs hslash with h | h
    · exact hdot h
    · exact hdotDot h
  subst hcs
  refine ⟨?_, (hinv.normalized _ hc).isName_of_eq hne hslash rfl⟩
  rwa [join_eq (hinv.normalized d (.inl hd))]

theorem query_slash_ne_root (d : Path) {n : Path} (hn : n ≠ []) :
    queryPath d ++ slash :: n ≠ root := by
  intro h
  have hlen := congrArg List.length h
  simp only [List.length_append, List.length_cons, root, List.length_nil] at hlen
  exact hn (List.length_eq_zero_iff.mp (by omega))

section

variable (hinv : Inv fs) (hd : fs.directories.contains d = true)
include hinv hd

theorem Inv.mem_listing_iff (hno : NoLongerSibling fs d) (n : Path) :
    n ∈ listing fs d ↔ n ≠ [] ∧ slash ∉ n ∧ (getattr fs (join d n)).1 = 0 := by
  rw [(getattr_spec fs (join d n)).1]
  constructor
  · intro hn
    rcases stored_join_of_mem_listing hinv hd hno hn with ⟨hstored, hname⟩
    exact ⟨hname.ne_nil, hname.no_slash, hstored⟩
  · rintro ⟨hnil, hslash, hstored⟩
    rw [join_eq (hinv.normalized d (.inl hd))] at hstored
    have hne := query_slash_ne_root d hnil
    have hname := (hinv.normalized _ hstored).isName_of_eq hne hslash rfl
    exact (mem_listing hinv hd).mpr
      ⟨⟨slash, hstored, hne⟩, hslash, hname.ne_dot, hname.ne_dotDot⟩

/-- Under the condition no two visited paths give the same listed name. -/
theorem Inv.listing_nodup (hno : NoLongerSibling fs d) : (listing fs d).Nodup := by
  have hq : 0 ∉ queryPath d := (hinv.normalized d (.inl hd)).queryPath_no_nul
  rw [listing_eq hd, List.filter_map]
  refine List.Nodup.map_on ?_ ((hinv.visited_nodup.filter _).filter _)
  -- a surviving path is the query path, a slash and its name
  have hshape : ∀ p, p ∈ visited fs → isListed (queryPath d) p = true →
      p.drop ((queryPath d).length + 1) ≠ dot ∧ p.drop ((queryPath d).length + 1) ≠ dotDot →
      p = queryPath d ++ slash :: p.drop ((queryPath d).length + 1) := by
    intro p hp hl hdots
    rcases (isListed_iff hq).mp hl with ⟨c, rest, rfl, hslash⟩
    rw [drop_query] at hdots ⊢
    by_cases hc : c = slash
    · rw [hc]
    · rcases hno c rest (hinv.mem_visited.mp hp).1 hc hslash with h | h
      · exact absurd h hdots.1
      · exact absurd h hdots.2
  intro p hp p' hp' heq
  simp only [List.mem_filter, Function.comp_apply, decide_eq_true_eq] at hp hp'
  rw [hshape p hp.1.1 hp.1.2 hp.2, hshape p' hp'.1.1 hp'.1.2 hp'.2, heq]

/-- A longer sibling spoils the listing: its rest is listed, and if that happens to
be an entry of the directory it is listed twice. -/
theorem Inv.noLongerSibling (hex : ListingExact fs d) : NoLongerSibling fs d := by
  intro c rest hstored hc hslash
  by_contra hdots
  rw [not_or] at hdots
  have hq : 0 ∉ queryPath d := (hinv.normalized d (.inl hd)).queryPath_no_nul
  have hne : queryPath d ++ c :: rest ≠ root := by
    intro h
    cases hqd : queryPath d with
    | nil => rw [hqd] at h; exact hc (List.cons.inj h).1
    | cons => rw [hqd] at h; simp [root] at h
  have hmem : rest ∈ listing fs d :=
    (mem_listing hinv hd).mpr ⟨⟨c, hstored, hne⟩, hslash, hdots⟩
  rcases (hex.2 rest).mp hmem with ⟨hnil, -, hattr⟩
  rw [(getattr_spec fs _).1, join_eq (hinv.normalized d (.inl hd))] at hattr
  have hne' := query_slash_ne_root d hnil
  -- the two visited paths are different and are listed under one name
  have hdup := hex.1
  rw [listing_eq hd, List.filter_map] at hdup
  have hkeep : ∀ b, Stored fs (queryPath d ++ b :: rest) → queryPath d ++ b :: rest ≠ root →
      queryPath d ++ b :: rest ∈ ((visited fs).filter fun p => isListed (queryPath d) p).filter
        ((fun n => decide (n ≠ dot ∧ n ≠ dotDot)) ∘
          fun p => p.drop ((queryPath d).length + 1)) := by
    intro b hb hbr
    simp only [List.mem_filter, Function.comp_apply, drop_query, decide_eq_true_eq]
    exact ⟨⟨hinv.mem_visited.mpr ⟨hb, hbr⟩, (isListed_iff hq).mpr ⟨b, rest, rfl, hslash⟩⟩, hdots⟩
  have hsame := List.inj_on_of_nodup_map hdup (hkeep c hstored hne) (hkeep slash hattr hne')
    (by rw [drop_query, drop_query])
  simp only [List.append_cancel_left_eq, List.cons.injEq, and_true] at hsame
  exact hc hsame

end

/-- In every reachable state and for every directory of it, the listing agrees with
`getattr` exactly when the directory has no longer sibling. -/
theorem listing_exact_iff {fs : Fs} (h : Reachable (system.guarded FuseOk) fs) {d : Path}
    (hd : fs.directories.contains d = true) : ListingExact fs d ↔ NoLongerSibling fs d := by
  have hinv := reachable_inv h
  constructor
  · exact hinv.noLongerSibling hd
  · intro hno
    exact ⟨hinv.listing_nodup hd hno, hinv.mem_listing_iff hd hno⟩

/-- The file system with directory `/a` and one more entry of the root. -/
def withSibling (sibling : Path) : Fs :=
  apply (apply initial (.mkdir [slash, 97])) (.mkdir (slash :: sibling))

theorem withSibling_reachable (sibling : Path) (hname : IsName sibling) (hne : sibling ≠ [97]) :
    Reachable (system.guarded FuseOk) (withSibling sibling) := by
  have hname' : IsName [97] := ⟨by decide, by decide, by decide, by decide, by decide⟩
  have h0 : Reachable (system.guarded FuseOk) initial := .init rfl
  have h1 : Reachable (system.guarded FuseOk) (apply initial (.mkdir [slash, 97])) :=
    h0.step (.mkdir [slash, 97]) ⟨⟨root, [97], rfl, .top, hname', rfl, rfl⟩, trivial, rfl⟩
  refine h1.step (.mkdir (slash :: sibling)) ⟨⟨root, sibling, rfl, .top, hname, ?_, rfl⟩, trivial, rfl⟩
  rw [(getattr_spec _ _).2]
  rintro (h | h)
  · simp only [apply, mkdir, initial, OrdMap.contains_insert, OrdMap.contains_empty, root,
      Bool.or_false, Bool.or_eq_true, decide_eq_true_eq, List.cons.injEq, true_and] at h
    rcases h with h | h
    · exact hne h
    · exact hname.ne_nil h
  · cases h

theorem listing_exact_a_b :
    ListingExact (withSibling [98]) [slash, 97] ↔ NoLongerSibling (withSibling [98]) [slash, 97] :=
  listing_exact_iff (withSibling_reachable [98]
    ⟨by decide, by decide, by decide, by decide, by decide⟩ (by decide)) rfl

/-- With `/a` and `/ab` present, the listing of `/a` holds an empty name. -/
theorem longer_sibling_listed :
    ¬ ∀ fs d, Reachable (system.guarded FuseOk) fs → fs.directories.contains d = true →
      ListingExact fs d := by
  intro hall
  have hreach := withSibling_reachable [97, 98]
    ⟨by decide, by decide, by decide, by decide, by decide⟩ (by decide)
  have hex := hall _ [slash, 97] hreach rfl
  have hmem : [] ∈ listing (withSibling [97, 98]) [slash, 97] := by decide
  exact ((hex.2 []).mp hmem).1 rfl

end SysProg.MemFs
