import Mathlib.Tactic
import SysProg.Shell.Structs

/-!
# The bounds of an array of arguments

`append_argv` makes room for the new argument, but not for the null behind it.

* `appended` — a command after some calls of `append_argv`;
* `WritesInside` — both elements that a call writes are part of the array;
* `stored_appended` — up to seven arguments are held;
* `argv_fits_iff` — with the eighth one a call writes behind the array.
-/

namespace SysProg.Shell

/-- A zeroed command after `append_argv` of the strings. -/
def appended (strings : List String) : Option CommandStruct :=
  strings.foldlM appendArgv .zeroed

/-- The capacity when `append_argv` writes. -/
def CommandStruct.capInForce (c : CommandStruct) : ℕ :=
  (grown c.argc c.allocated.1 c.allocated.2).2

/-- The two elements that `append_argv` writes are below the capacity it then has. -/
def WritesInside (c : CommandStruct) : Prop :=
  ∀ i ∈ [c.argc, c.argc + 1], i < c.capInForce

/-- The array holds the strings in order and then null. -/
def ArgvHolds (c : CommandStruct) (strings : List String) : Prop :=
  ∃ argv, c.argv = some argv ∧ ∀ i, i ≤ strings.length → argv[i]? = some strings[i]?

variable {d : CommandStruct} {c : Command}

theorem Stored.writesInside_iff (h : Stored d c) : WritesInside d ↔ c.argv.length + 1 < 8 := by
  rcases h.allocated with ⟨-, hcap, hlt, -⟩
  have hforce : d.capInForce = 8 := by
    rw [CommandStruct.capInForce, hcap, grown, if_neg (by omega)]
  simp only [WritesInside, hforce, ← h.argc, List.mem_cons, List.not_mem_nil, or_false,
    forall_eq_or_imp, forall_eq]
  omega

theorem Stored.argvHolds (h : Stored d c) (hne : c.argv ≠ []) : ArgvHolds d c.argv := by
  cases hargv : d.argv with
  | none => exact absurd (h.empty hargv) hne
  | some argv => exact ⟨argv, hargv, fun i hi => h.argv argv hargv i (h.argc ▸ hi)⟩

theorem stored_appended (strings : List String) (hfew : strings.length < 8) :
    ∃ d, appended strings = some d ∧ Stored d ⟨strings, none, none⟩ := by
  induction strings using List.reverseRecOn with
  | nil => exact ⟨.zeroed, rfl, stored_zeroed⟩
  | append_singleton strings s ih =>
    rw [List.length_append, List.length_singleton] at hfew
    rcases ih (by omega) with ⟨d, hd, hstored⟩
    rcases hstored.appendArgv s hfew with ⟨d', hd', hstored'⟩
    exact ⟨d', by simp [appended, ← hd', show strings.foldlM appendArgv _ = _ from hd], hstored'⟩

/-- A command can be filled with the strings without a write behind its array, and with the
strings so far and a null in it after every call, just when there are fewer than eight. -/
theorem argv_fits_iff (strings : List String) :
    (∀ before s after, strings = before ++ s :: after → ∃ c c', appended before = some c ∧
      WritesInside c ∧ appendArgv c s = some c' ∧ ArgvHolds c' (before ++ [s])) ↔
    strings.length < 8 := by
  constructor
  · intro hall
    by_contra hge
    -- the eighth call
    have hlt : 7 < strings.length := by omega
    have hsplit : strings = strings.take 7 ++ strings[7] :: strings.drop 8 := by
      rw [List.getElem_cons_drop, List.take_append_drop]
    have hseven : (strings.take 7).length = 7 := List.length_take_of_le hlt.le
    rcases stored_appended (strings.take 7) (by omega) with ⟨d, hd, hstored⟩
    rcases hall _ _ _ hsplit with ⟨c, c', hc, hinside, -, -⟩
    rcases Option.some.inj (hd.symm.trans hc) with rfl
    have hlen : (strings.take 7).length + 1 < 8 := hstored.writesInside_iff.mp hinside
    omega
  · intro hfew before s after hsplit
    rw [hsplit, List.length_append, List.length_cons] at hfew
    rcases stored_appended before (by omega) with ⟨d, hd, hstored⟩
    have hroom : before.length + 1 < 8 := by omega
    rcases hstored.appendArgv s hroom with ⟨d', hd', hstored'⟩
    exact ⟨d, d', hd, hstored.writesInside_iff.mpr hroom, hd', hstored'.argvHolds (by simp)⟩

theorem argv_fits_three : ∃ c c', appended ["ls", "-l"] = some c ∧ WritesInside c ∧
    appendArgv c "x" = some c' ∧ ArgvHolds c' ["ls", "-l", "x"] :=
  (argv_fits_iff ["ls", "-l", "x"]).mpr (by decide) ["ls", "-l"] "x" [] rfl

/-- The eighth argument goes into the last element of the array, and the null behind it. -/
theorem eighth_argument_overflows :
    ∃ c, appended ["a", "b", "c", "d", "e", "f", "g"] = some c ∧ c.argc = 7 ∧
      c.capInForce = 8 ∧ ¬ WritesInside c ∧ appendArgv c "h" = none := by
  refine ⟨_, rfl, rfl, rfl, fun hinside => ?_, rfl⟩
  exact absurd (hinside 8 (.tail _ (.head _))) (by decide)

end SysProg.Shell
