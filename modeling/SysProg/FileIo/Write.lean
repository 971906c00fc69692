import Mathlib.Tactic
import SysProg.FileIo.MemFs

/-!
# `impl::write` against POSIX

`write` resizes the file to `offset + size` before it copies the buffer. That is
the POSIX result for a write that reaches the end of the file or goes past it, and
it cuts the file off behind every other write.

* `PosixWrite` — what POSIX asks of the old and the new contents;
* `posixWrite_iff` — one write meets it exactly when it reaches the old end;
* `runs_follow_posix_iff` — a run of calls meets it throughout exactly when every
  write of the run does so.
-/

namespace SysProg.MemFs

open Lts

/-! ## Lists as memory -/

theorem length_resize (contents : List UInt8) (n : ℕ) : (resize contents n).length = n := by
  simp only [resize, List.length_append, List.length_take, List.length_replicate]
  omega

theorem getElem?_resize (contents : List UInt8) {n i : ℕ} (hi : i < n) :
    (resize contents n)[i]? = if i < contents.length then contents[i]? else some 0 := by
  unfold resize
  rcases Nat.lt_or_ge i contents.length with hc | hc
  · rw [List.getElem?_append_left (by simp; omega), if_pos hc, List.getElem?_take_of_lt hi]
  · rw [List.getElem?_append_right (by simp; omega), if_neg (by omega), List.getElem?_replicate,
      if_pos (by simp only [List.length_take]; omega)]

theorem length_memcpyAt {contents buffer : List UInt8} {offset : ℕ}
    (h : offset + buffer.length ≤ contents.length) :
    (memcpyAt contents offset buffer).length = contents.length := by
  simp only [memcpyAt, List.length_append, List.length_take, List.length_drop]
  omega

/-- Inside the target range the copy reads the buffer. -/
theorem getElem?_memcpyAt_inside {contents buffer : List UInt8} {offset i : ℕ}
    (h : offset + buffer.length ≤ contents.length) (hi : i < buffer.length) :
    (memcpyAt contents offset buffer)[offset + i]? = buffer[i]? := by
  have htake : (contents.take offset).length = offset := by
    rw [List.length_take]; omega
  unfold memcpyAt
  rw [List.getElem?_append_left (by rw [List.length_append]; omega),
    List.getElem?_append_right (by omega), htake]
  congr 1
  omega

/-- Outside the target range the copy changes nothing. -/
theorem getElem?_memcpyAt_outside {contents buffer : List UInt8} {offset i : ℕ}
    (h : offset + buffer.length ≤ contents.length)
    (hi : i < offset ∨ offset + buffer.length ≤ i) :
    (memcpyAt contents offset buffer)[i]? = contents[i]? := by
  have htake : (contents.take offset).length = offset := by
    rw [List.length_take]; omega
  unfold memcpyAt
  rcases hi with hi | hi
  · rw [List.getElem?_append_left (by rw [List.length_append]; omega),
      List.getElem?_append_left (by omega), List.getElem?_take_of_lt hi]
  · rw [List.getElem?_append_right (by rw [List.length_append]; omega), List.getElem?_drop]
    congr 1
    rw [List.length_append]
    omega

/-! ## One write -/

/-- POSIX: what a write of `buffer` at `offset` makes of the contents `old`. -/
structure PosixWrite (old buffer : List UInt8) (offset : ℕ) (new : List UInt8) : Prop where
  written : ∀ i, i < buffer.length → new[offset + i]? = buffer[i]?
  kept : ∀ i, i < old.length → i < offset ∨ offset + buffer.length ≤ i → new[i]? = old[i]?
  gap : ∀ i, old.length ≤ i → i < offset → new[i]? = some 0
  length : new.length = max old.length (offset + buffer.length)

/-- The contents `write` leaves behind. -/
def writtenContents (old buffer : List UInt8) (offset : ℕ) : List UInt8 :=
  memcpyAt (resize old (offset + buffer.length)) offset buffer

theorem length_writtenContents (old buffer : List UInt8) (offset : ℕ) :
    (writtenContents old buffer offset).length = offset + buffer.length := by
  unfold writtenContents
  rw [length_memcpyAt (by rw [length_resize]), length_resize]

/-- A write follows POSIX exactly when it reaches the old end of the file. -/
theorem posixWrite_iff (old buffer : List UInt8) (offset : ℕ) :
    PosixWrite old buffer offset (writtenContents old buffer offset) ↔
      old.length ≤ offset + buffer.length := by
  have hfit : offset + buffer.length ≤ (resize old (offset + buffer.length)).length := by
    rw [length_resize]
  constructor
  · -- a shorter result has lost the tail of the old contents
    intro h
    have hlen := h.length
    rw [length_writtenContents] at hlen
    omega
  · intro hle
    refine ⟨fun i hi => ?_, fun i hi hout => ?_, fun i hi hlt => ?_, ?_⟩
    · exact getElem?_memcpyAt_inside hfit hi
    · unfold writtenContents
      rw [getElem?_memcpyAt_outside hfit hout, getElem?_resize old (by omega), if_pos hi]
    · unfold writtenContents
      rw [getElem?_memcpyAt_outside hfit (.inl hlt), getElem?_resize old (by omega),
        if_neg (by omega)]
    · rw [length_writtenContents]
      omega

/-- The call in the range of `off_t`: the file's contents are replaced, and the
wrap of `size_t` does not show. -/
theorem write_eq {fs : Fs} {path : Path} {file : File} (buffer : List UInt8) {offset : Int}
    (hfile : fs.files.find? path = some file) (h0 : 0 ≤ offset)
    (hrange : offset + buffer.length < 2 ^ 63) :
    (write fs path buffer offset).2 =
      let new := writtenContents file.contents buffer offset.toNat
      { fs with files := fs.files.insert path ⟨new⟩ } := by
  have hsize : ((offset + buffer.length) % 2 ^ 64).toNat = offset.toNat + buffer.length := by
    omega
  simp only [write, hfile, writtenContents, hsize]

/-! ## Runs of calls -/

/-- The POSIX law for one call in one state: a write to an existing file changes
that file as POSIX says and leaves every other file alone. -/
def FollowsPosix (call : Call) (fs : Fs) : Prop :=
  match call with
  | .write path buffer offset => ∀ file, fs.files.find? path = some file →
      (∃ new, (apply fs call).files.find? path = some new ∧
        PosixWrite file.contents buffer offset.toNat new.contents) ∧
      ∀ other, other ≠ path → (apply fs call).files.find? other = fs.files.find? other
  | _ => True

/-- The write reaches the end of the file it goes to. -/
def ReachesEnd (call : Call) (fs : Fs) : Prop :=
  match call with
  | .write path buffer offset => ∀ file, fs.files.find? path = some file →
      (file.contents.length : Int) ≤ offset + buffer.length
  | _ => True

theorem followsPosix_iff {call : Call} (hrange : InRange call) (fs : Fs) :
    FollowsPosix call fs ↔ ReachesEnd call fs := by
  cases call with
  | mkdir | create => exact Iff.rfl
  | write path buffer offset =>
    rcases hrange with ⟨h0, hlt⟩
    refine forall₂_congr fun file hfile => ?_
    have hwrite : apply fs (.write path buffer offset) = _ := write_eq buffer hfile h0 hlt
    rw [hwrite]
    have hiff := posixWrite_iff file.contents buffer offset.toNat
    constructor
    · rintro ⟨⟨new, hnew, hposix⟩, _⟩
      rw [OrdMap.find?_insert_self] at hnew
      cases hnew
      have := hiff.mp hposix
      omega
    · intro hle
      refine ⟨⟨_, OrdMap.find?_insert_self .., hiff.mpr (by omega)⟩, fun other hne => ?_⟩
      exact OrdMap.find?_insert_of_ne _ _ hne

/-- Every write of a run follows POSIX exactly when every write of the run reaches
the end its file has at that moment. -/
theorem runs_follow_posix_iff {h : List (Call × Fs)} {fs : Fs} (hr : Run system h fs) :
    Steps FollowsPosix h ↔ Steps ReachesEnd h := by
  refine forall₂_congr fun x hx => ?_
  rcases hr.next_of_mem hx with ⟨_, hrange, _⟩
  exact followsPosix_iff hrange x.2

/-- `/f` is created and gets four bytes; then comes `last`. -/
def fourByteSchedule (last : Call) : List Call :=
  [.create [slash, 102], .write [slash, 102] [1, 2, 3, 4] 0, last]

theorem runs_follow_posix_append :
    ∃ h fs, exec step (fourByteSchedule (.write [slash, 102] [5, 6] 4)) [] initial = some (h, fs) ∧
      (Steps FollowsPosix h ↔ Steps ReachesEnd h) :=
  ⟨_, _, rfl, runs_follow_posix_iff
    (run_of_exec (fourByteSchedule (.write [slash, 102] [5, 6] 4)) rfl)⟩

/-- Overwriting the second of four bytes loses the last two. -/
theorem overwrite_cuts_file :
    ¬ ∀ h fs, Run system h fs → Steps FollowsPosix h := by
  intro hall
  have hrun := run_of_exec (fourByteSchedule (.write [slash, 102] [9] 1)) rfl
  have hlast := hall _ _ hrun _ List.mem_cons_self
  rcases hlast ⟨[1, 2, 3, 4]⟩ rfl with ⟨⟨new, hnew, hposix⟩, _⟩
  cases hnew
  have hlen := hposix.length
  exact absurd hlen (by decide)

end SysProg.MemFs
