import Mathlib.Tactic
import SysProg.Lib.Loop
import SysProg.FileIo.Write

/-!
# `impl::read`, and files written and read in pieces

The kernel decides how a file is cut into calls of `write` and of `read`.

* `read` — the three cases at the end of the file;
* `read_eq` — in the range of `off_t` it returns the part of the contents that is asked for;
* `writeChunks`, `readWindows` — consecutive calls, as `cp` and `cat` make them;
* `chunked_io` — what is read is what was written, for any two ways to cut it.
-/

namespace SysProg.MemFs

open Loop

/-! ## One read -/

/-- `memcpy(buffer, &contents[offset], n)`, if these bytes are part of the contents. -/
def memcpyFrom (contents : List UInt8) (offset : Int) (n : ℕ) : Option (List UInt8) :=
  if 0 ≤ offset ∧ offset + n ≤ contents.length then some ((contents.drop offset.toNat).take n)
  else none

/-- `impl::read`: the return code and the bytes copied to the buffer. The first test is made
in `off_t`, the second in `size_t`, and the result is converted to `int`. -/
def read (fs : Fs) (path : Path) (size : ℕ) (offset : Int) : Option (Int × List UInt8) :=
  match fs.files.find? path with
  | none => some (-ENOENT, [])
  | some file =>
      let length : Int := file.contents.length
      if offset ≥ length.bmod (2 ^ 64) then some (0, [])
      else if (offset + size) % 2 ^ 64 > length then
        (memcpyFrom file.contents offset ((length - offset) % 2 ^ 64).toNat).map
          fun bytes => ((length - offset).bmod (2 ^ 32), bytes)
      else
        (memcpyFrom file.contents offset size).map
          fun bytes => ((size : Int).bmod (2 ^ 32), bytes)

/-- The bytes of the contents that a read asks for. -/
def window (contents : List UInt8) (size offset : ℕ) : List UInt8 :=
  (contents.drop offset).take size

theorem length_window (contents : List UInt8) (size offset : ℕ) :
    (window contents size offset).length = min size (contents.length - offset) := by
  rw [window, List.length_take, List.length_drop]

/-- A copy that ends at the end of the contents or before it. -/
theorem memcpyFrom_eq {contents : List UInt8} {offset n : ℕ} (h : offset + n ≤ contents.length) :
    memcpyFrom contents offset n = some (window contents n offset) := by
  have hin : (0 : Int) ≤ offset ∧ (offset : Int) + n ≤ contents.length := by omega
  rw [memcpyFrom, if_pos hin]
  rfl

section

variable {fs : Fs} {path : Path} {file : File} {size offset : ℕ}

/-- In the range of `off_t` and `int` neither conversion nor the wrap of `size_t` shows. -/
theorem read_eq (hfile : fs.files.find? path = some file) (hlength : file.contents.length < 2 ^ 63)
    (hsize : size < 2 ^ 31) (hoffset : offset < 2 ^ 63) :
    read fs path size offset =
      let bytes := window file.contents size offset
      some ((bytes.length : Int), bytes) := by
  have hlen := length_window file.contents size offset
  have hoff : (file.contents.length : Int).bmod (2 ^ 64) = file.contents.length := by
    rw [Int.bmod_def]
    omega
  have hint : ∀ n : ℕ, n < 2 ^ 31 → (n : Int).bmod (2 ^ 32) = n := by
    intro n hn
    rw [Int.bmod_def]
    omega
  simp only [read, hfile, hoff]
  split
  · -- at the end of the file or behind it
    have hnil : window file.contents size offset = [] := by
      apply List.eq_nil_of_length_eq_zero
      omega
    rw [hnil]
    rfl
  · split
    · -- less is left than asked for
      have hrest : (file.contents.length : Int) - offset =
          ((file.contents.length - offset : ℕ) : Int) := by
        omega
      have hmod : ((file.contents.length : Int) - offset) % 2 ^ 64 =
          ((file.contents.length - offset : ℕ) : Int) := by
        omega
      have hall : window file.contents (file.contents.length - offset) offset =
          window file.contents size offset := by
        rw [window, window, List.take_eq_take_iff, List.length_drop]
        omega
      have hcount : (window file.contents size offset).length = file.contents.length - offset := by
        omega
      rw [hmod, hrest, Int.toNat_natCast, memcpyFrom_eq (by omega), hall, Option.map_some,
        hint _ (by omega), hcount]
    · -- all of it is there
      have hcount : (window file.contents size offset).length = size := by
        omega
      rw [memcpyFrom_eq (by omega), Option.map_some, hint _ hsize, hcount]

end

/-! ## Many calls -/

/-- `write` of one chunk after the other, from `offset` on. -/
def writeChunks (path : Path) : List (List UInt8) → ℕ → Fs → Fs
  | [], _, fs => fs
  | chunk :: chunks, offset, fs =>
      writeChunks path chunks (offset + chunk.length) (write fs path chunk offset).2

/-- The calls of `read` so far: their number, where the last one ended, and what they returned. -/
structure ReadLoop where
  calls : ℕ
  offset : Int
  out : List UInt8

/-- The next `read`. There is no result if it touches bytes that are not of the file. -/
def readStep (fs : Fs) (path : Path) (sizes : ℕ → ℕ) (s : ReadLoop) :
    ReadLoop ⊕ Option (List UInt8) :=
  match read fs path (sizes s.calls) s.offset with
  | none => .inr none
  | some (n, bytes) =>
      if n = 0 then .inr (some s.out) else .inl ⟨s.calls + 1, s.offset + n, s.out ++ bytes⟩

/-- `read` of consecutive windows until one returns 0, with a bound on the calls. -/
def readWindows (rounds : ℕ) (fs : Fs) (path : Path) (sizes : ℕ → ℕ) :
    Option (Option (List UInt8)) :=
  run (readStep fs path sizes) rounds ⟨0, 0, []⟩

/-- A write at the end of the file appends. -/
theorem writtenContents_append (old buffer : List UInt8) :
    writtenContents old buffer old.length = old ++ buffer := by
  have htake : (resize old (old.length + buffer.length)).take old.length = old := by
    rw [resize, List.take_of_length_le (Nat.le_add_right _ _), List.take_left]
  have hdrop : (resize old (old.length + buffer.length)).drop (old.length + buffer.length) = [] := by
    apply List.drop_of_length_le
    rw [length_resize]
  rw [writtenContents, memcpyAt, htake, hdrop, List.append_nil]

/-- Chunk after chunk the file grows by what is written. -/
theorem find?_writeChunks (path : Path) (chunks : List (List UInt8)) {fs : Fs} {old : List UInt8}
    (hfile : fs.files.find? path = some ⟨old⟩) (hlength : (old ++ chunks.flatten).length < 2 ^ 63) :
    (writeChunks path chunks old.length fs).files.find? path = some ⟨old ++ chunks.flatten⟩ := by
  induction chunks generalizing fs old with
  | nil =>
    rw [List.flatten_nil, List.append_nil]
    exact hfile
  | cons chunk chunks ih =>
    rw [List.flatten_cons, ← List.append_assoc] at hlength ⊢
    have hchunk : (old.length : Int) + chunk.length < 2 ^ 63 := by
      simp only [List.length_append] at hlength
      omega
    have hnew : (write fs path chunk old.length).2.files.find? path = some ⟨old ++ chunk⟩ := by
      rw [write_eq chunk hfile (Int.natCast_nonneg _) hchunk, Int.toNat_natCast,
        writtenContents_append]
      exact OrdMap.find?_insert_self ..
    -- the next chunk goes to the new end of the file
    rw [writeChunks, ← List.length_append]
    exact ih hnew hlength

section

variable {fs : Fs} {path : Path} {contents : List UInt8} {sizes : ℕ → ℕ}

/-- What has been read is the contents up to the offset. -/
def HasRead (contents : List UInt8) (s : ReadLoop) : Prop :=
  ∃ n : ℕ, s.offset = n ∧ n ≤ contents.length ∧ s.out = contents.take n

section

variable (hfile : fs.files.find? path = some ⟨contents⟩) (hlength : contents.length < 2 ^ 63)
  (hsizes : ∀ i, 0 < sizes i ∧ sizes i < 2 ^ 31)
include hfile hlength hsizes

/-- The next window continues what has been read, and it is empty only at the end. -/
theorem readStep_eq {s : ReadLoop} {n : ℕ} (hoffset : s.offset = n) (hle : n ≤ contents.length)
    (hout : s.out = contents.take n) : readStep fs path sizes s =
      if n = contents.length then .inr (some contents)
      else
        let next := min (n + sizes s.calls) contents.length
        .inl ⟨s.calls + 1, next, contents.take next⟩ := by
  have hread := read_eq hfile hlength (hsizes s.calls).2 (lt_of_le_of_lt hle hlength)
  have hlen := length_window contents (sizes s.calls) n
  have hpos := (hsizes s.calls).1
  rw [readStep, hoffset, hread]
  simp only
  -- a window is empty only at the end, since the sizes are not zero
  split_ifs with hzero hend hend
  · rw [hout, hend, List.take_length]
  · omega
  · omega
  · have hnext : n + (window contents (sizes s.calls) n).length =
        min (n + sizes s.calls) contents.length := by
      omega
    have hbytes : s.out ++ window contents (sizes s.calls) n =
        contents.take (min (n + sizes s.calls) contents.length) := by
      rw [hout, window, ← List.take_add, List.take_eq_take_iff]
      omega
    rw [hbytes, ← Nat.cast_add, hnext]

/-- The windows of a file are its contents. -/
theorem readWindows_eq : ∃ rounds, readWindows rounds fs path sizes = some (some contents) := by
  have hloop : ∃ r, readWindows (contents.length + 1) fs path sizes = some r ∧
      r = some contents := by
    -- every call but the last gets at least one byte
    refine run_of_measure (HasRead contents) (· = some contents)
      (fun s => contents.length - s.offset.toNat) ?_ ?_ ⟨0, rfl, Nat.zero_le _, rfl⟩ ?_
    · rintro s s' ⟨n, hoffset, hle, hout⟩ hstep
      rw [readStep_eq hfile hlength hsizes hoffset hle hout] at hstep
      split_ifs at hstep with hend
      rcases Sum.inl.inj hstep with rfl
      have hpos := (hsizes s.calls).1
      refine ⟨⟨_, rfl, Nat.min_le_right _ _, rfl⟩, ?_⟩
      simp only [hoffset, Int.toNat_natCast]
      omega
    · rintro s r ⟨n, hoffset, hle, hout⟩ hstep
      rw [readStep_eq hfile hlength hsizes hoffset hle hout] at hstep
      split_ifs at hstep with hend
      exact (Sum.inr.inj hstep).symm
    · simp
  rcases hloop with ⟨r, hrun, rfl⟩
  exact ⟨_, hrun⟩

end

end

/-- A new file that is written in chunks and read in windows, both of any sizes: the windows
are the chunks put together, the size is theirs, and every read stays inside the file and
returns no more than was asked for. -/
theorem chunked_io (fs : Fs) (path : Path) (chunks : List (List UInt8))
    (hlength : chunks.flatten.length < 2 ^ 63) (sizes : ℕ → ℕ)
    (hsizes : ∀ i, 0 < sizes i ∧ sizes i < 2 ^ 31) :
    let written := writeChunks path chunks 0 (create fs path).2
    (∃ rounds, readWindows rounds written path sizes = some (some chunks.flatten)) ∧
    getattr written path =
      (0, { st_mode := S_IFREG ||| 0o777, st_size := chunks.flatten.length }) ∧
    ∀ size offset : ℕ, size < 2 ^ 31 → offset < 2 ^ 63 →
      ∃ bytes, read written path size offset = some ((bytes.length : Int), bytes) ∧
        bytes.length ≤ size ∧ bytes = (chunks.flatten.drop offset).take size := by
  intro written
  have hnew : (create fs path).2.files.find? path = some ⟨[]⟩ := OrdMap.find?_insert_self ..
  have hfile : written.files.find? path = some ⟨chunks.flatten⟩ :=
    find?_writeChunks path chunks hnew hlength
  refine ⟨readWindows_eq hfile hlength hsizes, ?_, ?_⟩
  · simp only [getattr, hfile]
  · intro size offset hsize hoffset
    refine ⟨_, read_eq hfile hlength hsize hoffset, ?_, rfl⟩
    exact List.length_take_le _ _

/-- Five bytes in three chunks, one of them empty, and windows of two bytes. -/
theorem chunked_io_five :
    (∃ rounds, readWindows rounds (writeChunks [slash, 102] [[1, 2, 3], [], [4, 5]] 0
      (create initial [slash, 102]).2) [slash, 102] (fun _ => 2) = some (some [1, 2, 3, 4, 5])) ∧
    readWindows 4 (writeChunks [slash, 102] [[1, 2, 3], [], [4, 5]] 0
      (create initial [slash, 102]).2) [slash, 102] (fun _ => 2) = some (some [1, 2, 3, 4, 5]) :=
  ⟨(chunked_io initial [slash, 102] [[1, 2, 3], [], [4, 5]] (by decide) (fun _ => 2)
    (fun _ => by decide)).1, by decide +kernel⟩

end SysProg.MemFs
