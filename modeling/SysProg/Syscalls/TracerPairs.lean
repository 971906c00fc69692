import SysProg.Syscalls.Tracer

/-!
# The pairs of the tracer and the calls of the tracee

* `InStep` — the stops that the tracer pairs are the entry and the exit of a call, as far as
  `read` and `write` are concerned;
* `InStep.paired_eq` — in step, the tracer's calls are those that the tracee completes;
* `differs_of_not_inStep` — out of step, they differ for some arguments and results;
* `pairs_iff` — the tracer prints the lines of the completed calls, whatever their arguments
  and results are, if and only if it stays in step.
-/

namespace SysProg.Syscalls

/-! ## In step -/

/-- The tracee is in a `read` or `write`. -/
def InCall : Option Registers → Prop
  | none => False
  | some r => Shows r

/-- Two stops that the tracer takes for one call: they are the entry and the exit of a call,
or the first shows no `read` or `write` and none is completed at the second. -/
def Matched (pending : Option Registers) (s t : Stop) : Prop :=
  s.kind = .entry ∧ t.kind = .exit ∨
    ¬ Shows s.registers ∧ (t.kind = .exit → ¬ InCall (pendingAfter pending s))

/-- All pairs match. If the tracee is gone after the first stop of a pair, this stop shows no
`read` or `write`, unless it is the exit of one; if it is gone before, the variable
`registers` happens to show none. -/
def InStep (indeterminate : Registers) : Option Registers → List Stop → Prop
  | _, [] => ¬ Shows indeterminate
  | pending, [s] => ¬ Shows s.registers ∨ s.kind = .exit ∧ InCall pending
  | pending, s :: t :: stops =>
    Matched pending s t ∧ InStep indeterminate (pendingAfter (pendingAfter pending s) t) stops

variable {pending : Option Registers} {indeterminate r r' : Registers} {s t : Stop}
  {stops : List Stop} {x : BitVec 64}

/-- The registers have the same call number. -/
def SameNumber (r r' : Registers) : Prop :=
  r'.origRax = r.origRax

theorem SameNumber.shows_iff (h : SameNumber r r') : Shows r' ↔ Shows r := by
  unfold Shows
  rw [h]

theorem callOf_eq_none (h : ¬ Shows r) : callOf r x = none := by
  unfold callOf
  rw [if_neg fun h0 => h (.inl h0), if_neg fun h1 => h (.inr h1)]

theorem SameCall.callOf_eq (h : SameCall r r') (x : BitVec 64) : callOf r' x = callOf r x := by
  rcases h with ⟨hnumber, hrdi, hrsi, hrdx⟩
  unfold callOf
  rw [hnumber, hrdi, hrsi, hrdx]

theorem SameCall.sameNumber (h : SameCall r r') : SameNumber r r' := h.1

theorem completes_of_ne_exit (h : s.kind ≠ .exit) : completes pending s = [] := by
  unfold completes
  split
  · exact absurd ‹_› h
  · rfl

/-- Nothing is completed at the exit of another call. -/
theorem completes_of_not_inCall (h : s.kind = .exit → ¬ InCall pending) : completes pending s = [] := by
  by_cases hk : s.kind = .exit
  · rcases pending with _ | r
    · simp [completes, hk]
    · have hr : ¬ Shows r := h hk
      simp [completes, hk, callOf_eq_none hr]
  · exact completes_of_ne_exit hk

/-- At a stop that shows no `read` or `write` none is completed. -/
theorem completes_of_not_shows (hs : MayStop pending s) (hshow : ¬ Shows s.registers) :
    completes pending s = [] := by
  apply completes_of_not_inCall
  intro hk hcall
  rcases pending with _ | r
  · exact hcall
  · simp only [MayStop, hk] at hs
    exact hshow ((hs hcall).sameNumber.shows_iff.mpr hcall)

/-- What is completed at the two stops of a pair that matches is what the tracer prints. -/
theorem Matched.completes_eq (h : Matched pending s t) (hs : MayStop pending s) :
    completes pending s ++ completes (pendingAfter pending s) t =
      (callOf s.registers t.registers.rax).toList := by
  rcases h with ⟨hsk, htk⟩ | ⟨hshow, hexit⟩
  · simp [completes, pendingAfter, hsk, htk]
  · rw [callOf_eq_none hshow, completes_of_not_shows hs hshow, completes_of_not_inCall hexit]
    rfl

/-- In step the calls of the tracer are those that the tracee completes. -/
theorem InStep.paired_eq (h : InStep indeterminate pending stops) (ha : Alternates pending stops) :
    paired indeterminate stops = completed pending stops := by
  induction stops using paired.induct generalizing pending with
  | case1 =>
    change ¬ Shows indeterminate at h
    simp [paired, completed, callOf_eq_none h]
  | case2 =>
    rcases h with hshow | ⟨hk, hcall⟩
    · -- nothing is completed at the last stop
      simp [paired, completed, callOf_eq_none hshow, completes_of_not_shows ha.1 hshow]
    · -- the last stop is the exit of a call, and still shows it
      rcases pending with _ | r
      · exact absurd hcall id
      · have hsame := ha.1
        simp only [MayStop, hk] at hsame
        simp [paired, completed, completes, hk, (hsame hcall).callOf_eq]
  | case3 s t stops ih =>
    rcases ha with ⟨hs, -, hrest⟩
    rw [paired, ih h.2 hrest, completed, completed, ← List.append_assoc, h.1.completes_eq hs]

/-! ## Out of step

The arguments and results of a stream that is out of step are replaced, so that a digit 1
stands in what is printed and not in what is to be printed, or the other way round. -/

/-- What the tracer sees of a stop without the arguments and the result. -/
def Stop.shape (s : Stop) : StopKind × BitVec 64 :=
  (s.kind, s.registers.origRax)

/-- The stop with other arguments and another result. -/
def Stop.fill (s : Stop) (rdx rax : BitVec 64) : Stop :=
  ⟨s.kind, ⟨s.registers.origRax, 0, 0, rdx, rax⟩⟩

/-- The registers `r'` have the call number of `r` and arguments that are zero. -/
def Zeroed (r r' : Registers) : Prop :=
  r'.origRax = r.origRax ∧ r'.rdi = 0 ∧ r'.rsi = 0 ∧ r'.rdx = 0

/-- There is a digit 1 in the lines of the calls. -/
def Marked (calls : List Call) : Prop :=
  '1' ∈ (report calls).toList

instance (calls : List Call) : Decidable (Marked calls) :=
  inferInstanceAs (Decidable (_ ∈ _))

theorem marked_append {a b : List Call} : Marked (a ++ b) ↔ Marked a ∨ Marked b := by
  unfold Marked
  rw [report_append, String.toList_append, List.mem_append]

theorem not_marked_nil : ¬ Marked [] := by
  decide

theorem Zeroed.not_marked (h : Zeroed r r') : ¬ Marked (callOf r' 0).toList := by
  rcases h with ⟨-, hrdi, hrsi, hrdx⟩
  unfold callOf
  rw [hrdi, hrsi, hrdx]
  split
  · decide +kernel
  · split
    · decide +kernel
    · exact not_marked_nil

theorem Zeroed.shows_iff (h : Zeroed r r') : Shows r' ↔ Shows r := by
  have hnumber : SameNumber r r' := h.1
  exact hnumber.shows_iff

/-- With the result 1 the line of a call is marked. -/
theorem Zeroed.marked_iff (h : Zeroed r r') : Marked (callOf r' 1).toList ↔ Shows r := by
  constructor
  · intro hmark
    by_contra hr
    rw [callOf_eq_none (mt h.shows_iff.mp hr)] at hmark
    exact not_marked_nil hmark
  · rcases h with ⟨hnumber, hrdi, hrsi, hrdx⟩
    intro hr
    unfold callOf
    rw [hnumber, hrdi, hrsi, hrdx]
    rcases hr with hr | hr
    · rw [hr]
      decide +kernel
    · rw [hr]
      decide +kernel

/-- With the third argument 1, too. -/
theorem marked_argument (hs : Shows s.registers) : Marked (callOf (s.fill 1 0).registers 0).toList := by
  change Marked (callOf ⟨s.registers.origRax, 0, 0, 1, 0⟩ 0).toList
  rcases hs with hs | hs
  · rw [hs]
    decide +kernel
  · rw [hs]
    decide +kernel

theorem zeroed_fill (s : Stop) (x : BitVec 64) : Zeroed s.registers (s.fill 0 x).registers :=
  ⟨rfl, rfl, rfl, rfl⟩

section Fill

variable {pending' : Option Registers}

theorem pendingAfter_fill (h : Option.Rel Zeroed pending pending') (s : Stop) (x : BitVec 64) :
    Option.Rel Zeroed (pendingAfter pending s) (pendingAfter pending' (s.fill 0 x)) := by
  rcases hk : s.kind with _ | _ | _
  · simp only [pendingAfter, Stop.fill, hk]
    exact .some (zeroed_fill s x)
  · simp only [pendingAfter, Stop.fill, hk]
    exact .none
  · simp only [pendingAfter, Stop.fill, hk]
    exact h

theorem MayStop.fill (hs : MayStop pending s) (h : Option.Rel Zeroed pending pending') (x : BitVec 64) :
    MayStop pending' (s.fill 0 x) := by
  rcases hk : s.kind with _ | _ | _
  · simp only [MayStop, Stop.fill, hk] at hs ⊢
    cases h with
    | none => trivial
    | some => exact hs
  · simp only [MayStop, Stop.fill, hk] at hs ⊢
    cases h with
    | none => exact hs
    | @some r r' h =>
      intro hr'
      have hr : Shows r := h.shows_iff.mp hr'
      exact ⟨(hs hr).1.trans h.1.symm, h.2.1.symm, h.2.2.1.symm, h.2.2.2.symm⟩
  · simp only [MayStop, Stop.fill, hk]

theorem Alternates.fill (ha : Alternates pending stops) (h : Option.Rel Zeroed pending pending') :
    Alternates pending' (stops.map fun s => s.fill 0 0) := by
  induction stops generalizing pending pending' with
  | nil => trivial
  | cons s stops ih => exact ⟨ha.1.fill h 0, ih ha.2 (pendingAfter_fill h s 0)⟩

theorem completes_fill (h : Option.Rel Zeroed pending pending') (s : Stop) :
    ¬ Marked (completes pending' (s.fill 0 0)) := by
  by_cases hk : s.kind = .exit
  · simp only [completes, Stop.fill, hk]
    cases h with
    | none => exact not_marked_nil
    | some h => exact h.not_marked
  · have hkind : (s.fill 0 0).kind ≠ .exit := hk
    rw [completes_of_ne_exit hkind]
    exact not_marked_nil

theorem completes_fill_iff (h : Option.Rel Zeroed pending pending') (s : Stop) :
    Marked (completes pending' (s.fill 0 1)) ↔ s.kind = .exit ∧ InCall pending := by
  by_cases hk : s.kind = .exit
  · simp only [completes, Stop.fill, hk, true_and]
    cases h with
    | none => exact ⟨fun hmark => absurd hmark not_marked_nil, False.elim⟩
    | some h => exact h.marked_iff
  · have hkind : (s.fill 0 1).kind ≠ .exit := hk
    rw [completes_of_ne_exit hkind]
    exact ⟨fun hmark => absurd hmark not_marked_nil, fun hand => absurd hand.1 hk⟩

theorem completed_fill (h : Option.Rel Zeroed pending pending') (stops : List Stop) :
    ¬ Marked (completed pending' (stops.map fun s => s.fill 0 0)) := by
  induction stops generalizing pending pending' with
  | nil => exact not_marked_nil
  | cons s stops ih =>
    rw [List.map_cons, completed, marked_append]
    rintro (hmark | hmark)
    · exact completes_fill h s hmark
    · exact ih (pendingAfter_fill h s 0) hmark

theorem paired_fill (hind : Zeroed indeterminate r) (hrax : r.rax = 0) (stops : List Stop) :
    ¬ Marked (paired r (stops.map fun s => s.fill 0 0)) := by
  induction stops using paired.induct with
  | case1 =>
    simp only [List.map_nil, paired, hrax]
    exact hind.not_marked
  | case2 s => exact (zeroed_fill s 0).not_marked
  | case3 s t stops ih =>
    simp only [List.map_cons, paired, marked_append]
    rintro (hmark | hmark)
    · exact (zeroed_fill s 0).not_marked hmark
    · exact ih hmark

theorem map_shape_fill (stops : List Stop) :
    (stops.map fun s => s.fill 0 0).map Stop.shape = stops.map Stop.shape := by
  rw [List.map_map]
  rfl

/-- There are values for which the lines of the tracer are not those of the tracee. -/
def Differs (indeterminate : Registers) (pending' : Option Registers) (stops : List Stop) : Prop :=
  ∃ r' stops', r'.origRax = indeterminate.origRax ∧ stops'.map Stop.shape = stops.map Stop.shape ∧
    Alternates pending' stops' ∧ ¬ (Marked (paired r' stops') ↔ Marked (completed pending' stops'))

/-- The registers with all values zero. -/
def Registers.clear (r : Registers) : Registers :=
  ⟨r.origRax, 0, 0, 0, 0⟩

/-- A pair that does not match, with the digit 1 in the result at its second stop. -/
theorem differs_of_not_matched (ha : Alternates pending (s :: t :: stops))
    (h : Option.Rel Zeroed pending pending') (hm : ¬ Matched pending s t)
    (hsignal : ¬ (s.kind = .signal ∧ t.kind = .exit ∧ Shows s.registers)) :
    Differs indeterminate pending' (s :: t :: stops) := by
  rcases ha with ⟨hs, ht, hrest⟩
  have hind : Zeroed indeterminate indeterminate.clear := ⟨rfl, rfl, rfl, rfl⟩
  have hp := pendingAfter_fill h s 0
  have hp' := pendingAfter_fill hp t 1
  refine ⟨indeterminate.clear, s.fill 0 0 :: t.fill 0 1 :: stops.map fun s => s.fill 0 0,
    rfl, ?_, ?_, ?_⟩
  · rw [List.map_cons, List.map_cons, map_shape_fill]
    rfl
  · exact ⟨hs.fill h 0, ht.fill hp 1, hrest.fill hp'⟩
  · -- what is printed is marked iff the first stop shows a call, and what is to be printed
    -- iff a call is completed at the second
    have hprinted : Marked (callOf (s.fill 0 0).registers (t.fill 0 1).registers.rax).toList ↔
        Shows s.registers := (zeroed_fill s 0).marked_iff
    simp only [paired, completed, marked_append, paired_fill hind rfl stops, completes_fill h s,
      completed_fill hp' stops, completes_fill_iff hp t, hprinted, or_false, false_or]
    intro hiff
    apply hm
    by_cases hshow : Shows s.registers
    · rcases hiff.mp hshow with ⟨hexit, hcall⟩
      rcases hk : s.kind with _ | _ | _
      · exact .inl ⟨hk, hexit⟩
      · simp only [pendingAfter, hk, InCall] at hcall
      · exact absurd ⟨hk, hexit, hshow⟩ hsignal
    · exact .inr ⟨hshow, fun hexit hcall => hshow (hiff.mpr ⟨hexit, hcall⟩)⟩

/-- A signal that shows a call, with the digit 1 in the arguments that it shows. -/
theorem differs_of_signal (ha : Alternates pending (s :: t :: stops))
    (h : Option.Rel Zeroed pending pending') (hk : s.kind = .signal) (hshow : Shows s.registers) :
    Differs indeterminate pending' (s :: t :: stops) := by
  rcases ha with ⟨hs, ht, hrest⟩
  -- a signal leaves the pending call as it is
  have hafter : pendingAfter pending s = pending := by
    simp only [pendingAfter, hk]
  have hafter' : pendingAfter pending' (s.fill 1 0) = pending' := by
    simp only [pendingAfter, Stop.fill, hk]
  rw [hafter] at ht hrest
  have hp := pendingAfter_fill h t 0
  refine ⟨indeterminate.clear, s.fill 1 0 :: t.fill 0 0 :: stops.map fun s => s.fill 0 0,
    rfl, ?_, ?_, ?_⟩
  · rw [List.map_cons, List.map_cons, map_shape_fill]
    rfl
  · refine ⟨?_, ?_⟩
    · simp only [MayStop, Stop.fill, hk]
    · rw [hafter']
      exact ⟨ht.fill h 0, hrest.fill hp⟩
  · have hprinted : Marked (callOf (s.fill 1 0).registers (t.fill 0 0).registers.rax).toList :=
      marked_argument hshow
    have hnone : completes pending' (s.fill 1 0) = [] := by
      simp only [completes, Stop.fill, hk]
    simp only [paired, completed, marked_append, hprinted, hnone, hafter', not_marked_nil,
      completes_fill h t, completed_fill hp stops, true_or, or_false, iff_false, not_true_eq_false,
      not_false_eq_true]

/-- Out of step the lines differ for some values. -/
theorem differs_of_not_inStep (ha : Alternates pending stops)
    (h : Option.Rel Zeroed pending pending') (hn : ¬ InStep indeterminate pending stops) :
    Differs indeterminate pending' stops := by
  induction stops using paired.induct generalizing pending pending' with
  | case1 =>
    have hshow : Shows indeterminate := by
      by_contra hshow
      exact hn hshow
    refine ⟨⟨indeterminate.origRax, 0, 0, 0, 1⟩, [], rfl, rfl, trivial, ?_⟩
    have hmark : Marked (callOf ⟨indeterminate.origRax, 0, 0, 0, 1⟩ 1).toList :=
      (Zeroed.marked_iff ⟨rfl, rfl, rfl, rfl⟩).mpr hshow
    intro hiff
    exact not_marked_nil (hiff.mp hmark)
  | case2 s =>
    rcases not_or.mp hn with ⟨hshow, hexit⟩
    refine ⟨indeterminate.clear, [s.fill 0 1], rfl, rfl, ⟨ha.1.fill h 1, trivial⟩, ?_⟩
    have hmark : Marked (callOf (s.fill 0 1).registers (s.fill 0 1).registers.rax).toList :=
      (zeroed_fill s 1).marked_iff.mpr (not_not.mp hshow)
    intro hiff
    have hcompleted := hiff.mp hmark
    rw [completed, completed, List.append_nil, completes_fill_iff h s] at hcompleted
    exact hexit hcompleted
  | case3 s t stops ih =>
    by_cases hsignal : s.kind = .signal ∧ Shows s.registers
    · exact differs_of_signal ha h hsignal.1 hsignal.2
    · by_cases hm : Matched pending s t
      · -- the pair is cleared, and the values for the rest are taken
        have hp := pendingAfter_fill h s 0
        have hp' := pendingAfter_fill hp t 0
        rcases ih ha.2.2 hp' fun hin => hn ⟨hm, hin⟩ with ⟨r', stops', hnumber, hshape, ha', hdiff⟩
        refine ⟨r', s.fill 0 0 :: t.fill 0 0 :: stops', hnumber, ?_, ?_, ?_⟩
        · rw [List.map_cons, List.map_cons, hshape]
          rfl
        · exact ⟨ha.1.fill h 0, ha.2.1.fill hp 0, ha'⟩
        · have hprinted : ¬ Marked (callOf (s.fill 0 0).registers (t.fill 0 0).registers.rax).toList :=
            (zeroed_fill s 0).not_marked
          simp only [paired, completed, marked_append, hprinted, completes_fill h s,
            completes_fill hp t, false_or]
          exact hdiff
      · exact differs_of_not_matched ha h hm fun hs => hsignal ⟨hs.1, hs.2.2⟩

end Fill

/-! ## The tracer and the tracee -/

section Shape

variable {indeterminate' : Registers} {pending' : Option Registers} {s' t' : Stop}

theorem inCall_congr (h : Option.Rel SameNumber pending pending') : InCall pending' ↔ InCall pending := by
  cases h with
  | none => rfl
  | some h => exact h.shows_iff

theorem shape_eq (h : s'.shape = s.shape) :
    s'.kind = s.kind ∧ SameNumber s.registers s'.registers :=
  Prod.mk.inj h

theorem pendingAfter_congr (h : Option.Rel SameNumber pending pending') (hs : s'.shape = s.shape) :
    Option.Rel SameNumber (pendingAfter pending s) (pendingAfter pending' s') := by
  rcases shape_eq hs with ⟨hkind, hnumber⟩
  unfold pendingAfter
  rw [hkind]
  rcases s.kind with _ | _ | _
  · exact .some hnumber
  · exact .none
  · exact h

theorem matched_congr (h : Option.Rel SameNumber pending pending') (hs : s'.shape = s.shape)
    (ht : t'.shape = t.shape) : Matched pending' s' t' ↔ Matched pending s t := by
  unfold Matched
  rw [(shape_eq hs).1, (shape_eq ht).1, (shape_eq hs).2.shows_iff,
    inCall_congr (pendingAfter_congr h hs)]

/-- Whether the tracer stays in step depends only on the stops and the call numbers. -/
theorem InStep.congr {stops' : List Stop} (hin : InStep indeterminate pending stops)
    (hi : SameNumber indeterminate indeterminate') (h : Option.Rel SameNumber pending pending')
    (hshape : stops'.map Stop.shape = stops.map Stop.shape) :
    InStep indeterminate' pending' stops' := by
  induction stops using paired.induct generalizing pending pending' stops' with
  | case1 =>
    rcases List.map_eq_nil_iff.mp hshape with rfl
    change ¬ Shows indeterminate'
    rw [hi.shows_iff]
    exact hin
  | case2 =>
    rcases List.map_eq_cons_iff.mp hshape with ⟨s', rest, rfl, hs, hrest⟩
    rcases List.map_eq_nil_iff.mp hrest with rfl
    change ¬ Shows s'.registers ∨ s'.kind = .exit ∧ InCall pending'
    rw [(shape_eq hs).1, (shape_eq hs).2.shows_iff, inCall_congr h]
    exact hin
  | case3 s t stops ih =>
    rcases List.map_eq_cons_iff.mp hshape with ⟨s', rest, rfl, hs, hrest⟩
    rcases List.map_eq_cons_iff.mp hrest with ⟨t', rest, rfl, ht, hrest⟩
    refine ⟨(matched_congr h hs ht).mpr hin.1, ?_⟩
    exact ih hin.2 (pendingAfter_congr (pendingAfter_congr h hs) ht) hrest

end Shape

/-- Without signals the tracer stays in step with a tracee that ends in the entry of another
call, such as `exit_group`. -/
theorem inStep_of_no_signal {last : Registers} (ha : Alternates none (stops ++ [⟨.entry, last⟩]))
    (hsignal : ∀ s ∈ stops, s.kind ≠ .signal) (hlast : ¬ Shows last) :
    InStep indeterminate none (stops ++ [⟨.entry, last⟩]) := by
  induction stops using paired.induct with
  | case1 => exact .inl hlast
  | case2 s =>
    -- the only stop before is an entry, after which there is no other
    rcases ha with ⟨hs, ht, -⟩
    rcases hk : s.kind with _ | _ | _
    · simp only [pendingAfter, hk, MayStop] at ht
    · simp only [hk, MayStop] at hs
    · exact absurd hk (hsignal s List.mem_cons_self)
  | case3 s t stops ih =>
    rcases ha with ⟨hs, ht, hrest⟩
    have hsk : s.kind = .entry := by
      rcases hk : s.kind with _ | _ | _
      · rfl
      · simp only [hk, MayStop] at hs
      · exact absurd hk (hsignal s List.mem_cons_self)
    have htk : t.kind = .exit := by
      rcases hk : t.kind with _ | _ | _
      · simp only [pendingAfter, hsk, hk, MayStop] at ht
      · rfl
      · exact absurd hk (hsignal t (List.mem_cons_of_mem s List.mem_cons_self))
    have hafter : pendingAfter (pendingAfter none s) t = none := by
      simp only [pendingAfter, htk]
    rw [hafter] at hrest
    refine ⟨.inl ⟨hsk, htk⟩, ?_⟩
    rw [hafter]
    apply ih hrest
    intro u hu
    exact hsignal u (List.mem_cons_of_mem s (List.mem_cons_of_mem t hu))

/-- What the tracer prints for a tracee is the report of the calls that it completes. -/
def Reported (exec : Registers) (indeterminate : Registers) (tracee : Stops) : Prop :=
  tracer indeterminate (⟨.signal, exec⟩ :: tracee.stops) = some (report (completed none tracee.stops))

/-- The tracer prints one line for each completed `read` or `write`, with its own arguments and
its own result, whatever these are, if and only if it stays in step with the tracee: `tracee'`
runs through the tracees with the same stops and call numbers. -/
theorem pairs_iff (indeterminate : Registers) (tracee : Stops) :
    (∀ (exec indeterminate' : Registers) (tracee' : Stops),
      indeterminate'.origRax = indeterminate.origRax →
      tracee'.stops.map Stop.shape = tracee.stops.map Stop.shape →
      Reported exec indeterminate' tracee') ↔
    InStep indeterminate none tracee.stops := by
  constructor
  · intro hall
    by_contra hn
    rcases differs_of_not_inStep tracee.alternates .none hn with
      ⟨r', stops', hnumber, hshape, halternates, hdiff⟩
    have hreport := hall indeterminate r' ⟨stops', halternates⟩ hnumber hshape
    unfold Reported at hreport
    rw [tracer_eq] at hreport
    apply hdiff
    unfold Marked
    rw [Option.some.inj hreport]
  · intro hin exec indeterminate' tracee' hnumber hshape
    have hin' := hin.congr hnumber .none hshape
    unfold Reported
    rw [tracer_eq, hin'.paired_eq tracee'.alternates]

/-- A tracee that reads once and ends with `exit_group`. -/
def reader : Stops where
  stops := [⟨.entry, ⟨0, 3, 4096, 8, -38⟩⟩, ⟨.exit, ⟨0, 3, 4096, 8, 5⟩⟩, ⟨.entry, ⟨231, 0, 0, 0, -38⟩⟩]
  alternates := by simp [Alternates, MayStop, pendingAfter, SameCall]

theorem pairs_reader :
    Reported ⟨59, 0, 0, 0, 0⟩ ⟨0, 0, 0, 0, 0⟩ reader ∧
      report (completed none reader.stops) = "read(3, 0x1000, 8) = 5\n" := by
  have hin : InStep ⟨0, 0, 0, 0, 0⟩ none
      ([⟨.entry, ⟨0, 3, 4096, 8, -38⟩⟩, ⟨.exit, ⟨0, 3, 4096, 8, 5⟩⟩] ++
        [⟨.entry, ⟨231, 0, 0, 0, -38⟩⟩]) := by
    apply inStep_of_no_signal
    · exact reader.alternates
    · decide
    · decide
  exact ⟨(pairs_iff ⟨0, 0, 0, 0, 0⟩ reader).mpr hin _ _ reader rfl rfl, by decide +kernel⟩

/-- The same tracee with a signal before the call. -/
def interrupted : Stops where
  stops := ⟨.signal, ⟨-1, 0, 0, 0, 0⟩⟩ :: reader.stops
  alternates := ⟨trivial, reader.alternates⟩

/-- The exit of the call is paired with the entry of `exit_group`, which shows -`ENOSYS`. -/
theorem interrupted_not_reported :
    tracer ⟨231, 0, 0, 0, -38⟩ (⟨.signal, ⟨59, 0, 0, 0, 0⟩⟩ :: interrupted.stops) =
        some "read(3, 0x1000, 8) = 18446744073709551578\n" ∧
      ¬ Reported ⟨59, 0, 0, 0, 0⟩ ⟨231, 0, 0, 0, -38⟩ interrupted := by
  unfold Reported
  decide +kernel

end SysProg.Syscalls
