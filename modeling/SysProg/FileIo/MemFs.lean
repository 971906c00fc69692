import Mathlib.Tactic
import SysProg.Lib.Bytes
import SysProg.Lib.OrdMap
import SysProg.Lib.Lts

/-!
# The in-memory file system of `task2-fileio/memfs.cpp`

The whole file system is a set of full directory paths and a map from full file
paths to contents. Paths are the byte strings FUSE passes in.

The module holds the functions of namespace `impl` and the system whose steps are
the mutating calls. What `write` does to file contents is in `FileIo.Write`, what
`readdir` lists in `FileIo.Readdir`.
-/

namespace SysProg.MemFs

open Lts

/-- A path or a name: a C string without its terminator. -/
abbrev Path := List UInt8

/-- The byte `'/'`. -/
def slash : UInt8 := 47

/-- The root directory `"/"`. -/
def root : Path := [slash]

/-- `"."` -/
def dot : Path := [46]

/-- `".."` -/
def dotDot : Path := [46, 46]

/-- `struct File`. -/
structure File where
  contents : List UInt8
deriving DecidableEq, Repr

/-- The two static containers. -/
structure Fs where
  directories : OrdMap Path Unit
  files : OrdMap Path File

/-- The state `main` starts serving from: only the root directory exists. -/
def initial : Fs where
  directories := OrdMap.empty.insert root ()
  files := OrdMap.empty

def ENOENT : Int := 2
def S_IFREG : Nat := 0o100000
def S_IFDIR : Nat := 0o040000

/-- The fields of `struct stat` that `getattr` fills in. -/
structure Stat where
  st_mode : Nat
  st_size : Nat
deriving DecidableEq, Repr

/-- `impl::getattr`: the return code and the zero-initialised `stat` it fills. -/
def getattr (fs : Fs) (path : Path) : Int × Stat :=
  match fs.files.find? path with
  | some file => (0, { st_mode := S_IFREG ||| 0o777, st_size := file.contents.length })
  | none =>
      if fs.directories.contains path then (0, { st_mode := S_IFDIR ||| 0o755, st_size := 0 })
      else (-ENOENT, { st_mode := 0, st_size := 0 })

/-- `strncmp` on C strings: a string ends in a zero byte, and the comparison stops
after `n` bytes, at the first difference, or at a common end. -/
def strncmp : List UInt8 → List UInt8 → ℕ → Int
  | _, _, 0 => 0
  | a, b, n + 1 =>
      if a.headD 0 ≠ b.headD 0 then (a.headD 0).toNat - (b.headD 0).toNat
      else if a.headD 0 = 0 then 0
      else strncmp a.tail b.tail n

/-- The query path of `readdir`: a trailing slash is removed, so that the root
becomes the empty string. -/
def queryPath (path : Path) : Path :=
  if path.getLast? = some slash then path.dropLast else path

/-- The three tests both loops of `readdir` apply to a full path; the entries that
pass are listed. -/
def isListed (query full : Path) : Bool :=
  !(full.length ≤ query.length) && strncmp full query query.length == 0 &&
    !(full.drop (query.length + 1)).contains slash

/-- `impl::readdir`: the return code and the names passed to `filler`, in order.
The loop over the directories skips the root, the loop over the files does not. -/
def readdir (fs : Fs) (path : Path) : Int × List Path :=
  if fs.directories.contains path then
    let query := queryPath path
    let directories := fs.directories.keys.filter fun full => full ≠ root ∧ isListed query full
    let files := fs.files.keys.filter fun full => isListed query full
    (0, [dot, dotDot] ++ (directories ++ files).map fun full => full.drop (query.length + 1))
  else (-ENOENT, [dot, dotDot])

/-- `std::vector<char>::resize`: cut off the end, or fill up with zeros. -/
def resize (contents : List UInt8) (n : ℕ) : List UInt8 :=
  contents.take n ++ List.replicate (n - contents.length) 0

/-- `memcpy(contents.data() + offset, buffer, size)`. -/
def memcpyAt (contents : List UInt8) (offset : ℕ) (buffer : List UInt8) : List UInt8 :=
  contents.take offset ++ buffer ++ contents.drop (offset + buffer.length)

/-- `impl::write`. The new length is computed in `size_t`, the result is `size`
converted to `int`. -/
def write (fs : Fs) (path : Path) (buffer : List UInt8) (offset : Int) : Int × Fs :=
  match fs.files.find? path with
  | none => (-ENOENT, fs)
  | some file =>
      let contents := resize file.contents ((offset + buffer.length) % 2 ^ 64).toNat
      let contents := memcpyAt contents offset.toNat buffer
      ((buffer.length : Int).bmod (2 ^ 32), { fs with files := fs.files.insert path ⟨contents⟩ })

/-- `impl::create`. -/
def create (fs : Fs) (path : Path) : Int × Fs :=
  (0, { fs with files := fs.files.insert path ⟨[]⟩ })

/-- `impl::mkdir`. Emplacing a path that is already there changes nothing. -/
def mkdir (fs : Fs) (path : Path) : Int × Fs :=
  (0, { fs with directories := fs.directories.insert path () })

/-! ## The calls as a system -/

/-- The mutating calls. -/
inductive Call where
  | mkdir (path : Path)
  | create (path : Path)
  | write (path : Path) (buffer : List UInt8) (offset : Int)
deriving DecidableEq, Repr

/-- The state after a call. -/
def apply (fs : Fs) : Call → Fs
  | .mkdir path => (mkdir fs path).2
  | .create path => (create fs path).2
  | .write path buffer offset => (write fs path buffer offset).2

/-- A write stays inside the range of `off_t`. -/
def InRange : Call → Prop
  | .write _ buffer offset => 0 ≤ offset ∧ offset + buffer.length < 2 ^ 63
  | _ => True

instance : DecidablePred InRange
  | .mkdir _ | .create _ => isTrue trivial
  | .write _ buffer offset => inferInstanceAs (Decidable (0 ≤ offset ∧ offset + buffer.length < _))

/-- Any sequence of calls on the initial file system. -/
def system : System Fs Call where
  Init := fun fs => fs = initial
  Next := fun call fs fs' => InRange call ∧ fs' = apply fs call

/-- One call of a schedule. -/
def step (call : Call) (fs : Fs) : Option Fs :=
  if InRange call then some (apply fs call) else none

/-- Executing a schedule of calls in range gives a run. -/
theorem run_of_exec (calls : List Call) {h : List (Call × Fs)} {fs : Fs}
    (hx : exec step calls [] initial = some (h, fs)) : Run system h fs := by
  have h0 : Run system [] initial := .init rfl
  refine h0.exec (fun call fs fs' hstep => ?_) hx
  unfold step at hstep
  split_ifs at hstep with hrange
  exact ⟨hrange, (Option.some.inj hstep).symm⟩

end SysProg.MemFs
