import Mathlib.Tactic
import SysProg.Lib.KMerge
import SysProg.Sort.Streams

/-!
# The external sort of `task0-sort/sort.cpp`

`sortedBlocks` reads the input into blocks of lines, sorts each and writes all but
the first line of it to a temporary file; `mergeBlocks` writes the smallest first
line, refills it from the block's file and drops the block when its file is used up.

* `Holds` relates a block to the lines it still stands for;
* `mergeBlocks_eq` — on blocks of sorted lines the merge loop is a `KMerge`;
* `sortedBlocks_eq` — the blocks of an input stand for its lines;
* `external_sort_correct` — the output is the sorted input, whatever the threshold
  and the order of the blocks.
-/

namespace SysProg.Sort

/-- `struct Block`. -/
structure Block where
  line : Line
  file : Stream
deriving DecidableEq, Repr

/-- `lexi`: `string_view::compare` is the lexicographic order of unsigned bytes. -/
def lexi (ascendingSort : Bool) (a b : Line) : Bool :=
  if ascendingSort then a < b else b < a

variable (ascendingSort : Bool) {blocks : List Block} {lss : List (List Line)} {block : Block}
  {i : ℕ}

/-- `std::sort(lines->begin(), lines->end(), lexi)`. -/
def sortLines (lines : List Line) : List Line :=
  lines.mergeSort fun a b => !lexi ascendingSort b a

/-- `sortedBlock`: the first line stays in memory, the others go to the temporary
file, which is rewound. -/
def sortedBlock (lines : List Line) : Block :=
  let sorted := sortLines ascendingSort lines
  { line := sorted.headD [], file := { rest := encode sorted.tail, good := true } }

/-- The variables of `sortedBlocks`. The future `sorter` holds the lines it sorts. -/
structure Filling where
  input : Stream
  fillingLines : List Line
  fillingBlockSize : ℕ
  sorter : Option (List Line)
  blocks : List Block

/-- Appending the block of a valid future, `blocks.emplace_back(sorter.get())`. -/
def collect (sorter : Option (List Line)) (blocks : List Block) : List Block :=
  blocks ++ (sorter.map (sortedBlock ascendingSort)).toList

/-- The body of the reading loop: read a line, keep it unless it is the empty rest
at the end of the input, and start a sorter when the block is full. -/
def fillStep (blockSize : ℕ) (st : Filling) : Filling :=
  let (line, input) := getline st.input []
  let st :=
    if input.good || !line.isEmpty then
      { st with
        input := input
        fillingBlockSize := st.fillingBlockSize + line.length
        fillingLines := st.fillingLines ++ [line] }
    else { st with input := input }
  if st.fillingBlockSize ≥ blockSize then
    { input := st.input
      fillingLines := []
      fillingBlockSize := 0
      sorter := some st.fillingLines
      blocks := collect ascendingSort st.sorter st.blocks }
  else st

theorem fillStep_input (blockSize : ℕ) (st : Filling) :
    (fillStep ascendingSort blockSize st).input = (getline st.input []).2 := by
  unfold fillStep
  dsimp only
  split_ifs <;> rfl

/-- `while (in.good())`. -/
def fillLoop (blockSize : ℕ) (st : Filling) : Filling :=
  if st.input.good then fillLoop blockSize (fillStep ascendingSort blockSize st) else st
termination_by st.input.measure
decreasing_by
  rw [fillStep_input]
  exact getline_measure ‹_› []

/-- `sortedBlocks()` on the bytes of the input: the last, partly filled block comes
before the block of the sorter that is still running. -/
def sortedBlocks (blockSize : ℕ) (input : List UInt8) : List Block :=
  let st := fillLoop ascendingSort blockSize
    { input := { rest := input, good := true }
      fillingLines := []
      fillingBlockSize := 0
      sorter := none
      blocks := [] }
  let blocks :=
    if st.fillingLines.isEmpty then st.blocks
    else st.blocks ++ [sortedBlock ascendingSort st.fillingLines]
  collect ascendingSort st.sorter blocks

/-- `blocks[i]->line`. -/
def lineAt (blocks : List Block) (i : ℕ) : Line :=
  (blocks[i]?.map Block.line).getD []

/-- The loop that finds the block with the smallest line, the first one of several. -/
def iMin (blocks : List Block) : ℕ :=
  (List.range' 1 (blocks.length - 1)).foldl
    (fun m i => if lexi ascendingSort (lineAt blocks i) (lineAt blocks m) then i else m) 0

/-- The body of the merge loop for the block `i`: its line is written, the next one
is read, and the block is erased when there is none. -/
def mergeStep (blocks : List Block) (i : ℕ) (block : Block) : List Block :=
  let (line, file) := getline block.file block.line
  if file.good then blocks.set i { line := line, file := file } else blocks.eraseIdx i

/-- The work left in the blocks. -/
def mergeMeasure (blocks : List Block) : ℕ :=
  (blocks.map fun b => b.file.rest.length + 1).sum

theorem mergeMeasure_eraseIdx
    (h : blocks[i]? = some block) : mergeMeasure (blocks.eraseIdx i) < mergeMeasure blocks := by
  induction blocks generalizing i with
  | nil => simp at h
  | cons b blocks ih =>
    cases i with
    | zero => simp [mergeMeasure]
    | succ i =>
      have := ih (i := i) (by simpa using h)
      simpa [mergeMeasure] using this

theorem mergeMeasure_set {block block' : Block}
    (h : blocks[i]? = some block) (hlt : block'.file.rest.length < block.file.rest.length) :
    mergeMeasure (blocks.set i block') < mergeMeasure blocks := by
  induction blocks generalizing i with
  | nil => simp at h
  | cons b blocks ih =>
    cases i with
    | zero =>
      simp only [List.getElem?_cons_zero, Option.some.injEq] at h
      subst h
      simpa [mergeMeasure] using hlt
    | succ i =>
      have := ih (i := i) (by simpa using h)
      simpa [mergeMeasure] using this

theorem mergeMeasure_mergeStep
    (h : blocks[i]? = some block) : mergeMeasure (mergeStep blocks i block) < mergeMeasure blocks := by
  unfold mergeStep
  dsimp only
  split_ifs with hgood
  · -- a good stream after the read was good before it, and lost a newline
    have hbefore : block.file.good = true := by
      by_contra hb
      simp [getline, hb] at hgood
    refine mergeMeasure_set h ?_
    have := getline_measure hbefore block.line
    simp only [Stream.measure, hgood, hbefore, if_true] at this
    show (getline block.file block.line).2.rest.length < _
    omega
  · exact mergeMeasure_eraseIdx h

/-- `mergeBlocks`: the bytes written to `out`. The block at `iMin` exists as long as
there are blocks. -/
def mergeBlocks (blocks : List Block) : List UInt8 :=
  match _h : blocks[iMin ascendingSort blocks]? with
  | none => []
  | some block =>
      block.line ++ newline :: mergeBlocks (mergeStep blocks (iMin ascendingSort blocks) block)
termination_by mergeMeasure blocks
decreasing_by exact mergeMeasure_mergeStep ‹_›

theorem mergeBlocks_nil : mergeBlocks ascendingSort [] = [] := by
  rw [mergeBlocks]
  split
  · rfl
  · rename_i h
    simp at h

theorem mergeBlocks_of_get (h : blocks[iMin ascendingSort blocks]? = some block) :
    mergeBlocks ascendingSort blocks = block.line ++ newline ::
      mergeBlocks ascendingSort (mergeStep blocks (iMin ascendingSort blocks) block) := by
  rw [mergeBlocks]
  split
  · rename_i h'
    simp [h] at h'
  · rename_i block' h'
    obtain rfl : block = block' := by simpa [h] using h'
    rfl

/-! ## The order -/

/-- `a` may stand before `b` in the output. -/
def Before (a b : Line) : Prop :=
  lexi ascendingSort b a = false

theorem before_iff {a b : Line} :
    Before ascendingSort a b ↔ if ascendingSort then a ≤ b else b ≤ a := by
  cases ascendingSort <;> simp [Before, lexi]

instance : IsTrans Line (Before ascendingSort) where
  trans a b c hab hbc := by
    rw [before_iff] at *
    cases ascendingSort
    · exact le_trans hbc hab
    · exact le_trans hab hbc

instance : Std.Antisymm (Before ascendingSort) where
  antisymm a b hab hba := by
    rw [before_iff] at *
    cases ascendingSort
    · exact le_antisymm hba hab
    · exact le_antisymm hab hba

theorem before_total (a b : Line) : Before ascendingSort a b ∨ Before ascendingSort b a := by
  rw [before_iff, before_iff]
  cases ascendingSort
  · exact le_total b a
  · exact le_total a b

theorem sortLines_perm (lines : List Line) : (sortLines ascendingSort lines).Perm lines :=
  List.mergeSort_perm ..

theorem sortLines_pairwise (lines : List Line) :
    (sortLines ascendingSort lines).Pairwise (Before ascendingSort) := by
  have hle : ∀ a b : Line, (!lexi ascendingSort b a) = true ↔ Before ascendingSort a b := by
    intro a b
    simp [Before]
  refine (List.pairwise_mergeSort (fun a b c => ?_) (fun a b => ?_) lines).imp fun h => ?_
  · simp only [hle]
    exact fun hab hbc => IsTrans.trans _ _ _ hab hbc
  · rw [Bool.or_eq_true, hle, hle]
    exact before_total ascendingSort a b
  · exact (hle _ _).mp h

/-! ## The merge loop -/

/-- The block that stands for `lines`: the first one in memory, the rest in its file. -/
def blockOf (lines : List Line) : Block :=
  { line := lines.headD [], file := { rest := encode lines.tail, good := true } }

/-- A block of lines: at least one, none with a newline in it. -/
def Wf (lines : List Line) : Prop :=
  lines ≠ [] ∧ ∀ l ∈ lines, newline ∉ l

/-- The search loop after `n` rounds, for a line `f i` at every index `i`. -/
theorem foldl_min (f : ℕ → Line) (n : ℕ) :
    let m := (List.range' 1 n).foldl (fun m i => if lexi ascendingSort (f i) (f m) then i else m) 0
    m ≤ n ∧ ∀ j ≤ n, Before ascendingSort (f m) (f j) := by
  induction n with
  | zero =>
    refine ⟨le_refl _, fun j hj => ?_⟩
    obtain rfl : j = 0 := by omega
    exact (or_self _).mp (before_total ascendingSort _ _)
  | succ n ih =>
    simp only [List.range'_1_concat, List.foldl_append, List.foldl_cons, List.foldl_nil] at ih ⊢
    rcases ih with ⟨hle, hmin⟩
    split_ifs with hlt
    · -- the new line is smaller than the smallest so far, hence than all before it
      have hnew : ∀ j ≤ n, Before ascendingSort (f (1 + n)) (f j) := by
        intro j hj
        refine IsTrans.trans _ _ _ ?_ (hmin j hj)
        rcases before_total ascendingSort (f (1 + n))
          (f ((List.range' 1 n).foldl (fun m i =>
            if lexi ascendingSort (f i) (f m) then i else m) 0)) with h | h
        · exact h
        · simp [Before, hlt] at h
      refine ⟨by omega, fun j hj => ?_⟩
      rcases Nat.lt_or_ge n j with hj' | hj'
      · obtain rfl : j = 1 + n := by omega
        exact (or_self _).mp (before_total ascendingSort _ _)
      · exact hnew j hj'
    · refine ⟨by omega, fun j hj => ?_⟩
      rcases Nat.lt_or_ge n j with hj' | hj'
      · obtain rfl : j = 1 + n := by omega
        simpa [Before] using hlt
      · exact hmin j hj'

/-- The chosen block exists and no block has a line that must come before its line. -/
theorem iMin_spec (hne : blocks ≠ []) :
    ∃ block, blocks[iMin ascendingSort blocks]? = some block ∧
      ∀ b ∈ blocks, Before ascendingSort block.line b.line := by
  have hpos : 0 < blocks.length := List.length_pos_iff.mpr hne
  rcases foldl_min ascendingSort (lineAt blocks) (blocks.length - 1) with ⟨hle, hmin⟩
  have hlt : iMin ascendingSort blocks < blocks.length := by
    unfold iMin
    omega
  have hget := List.getElem?_eq_getElem hlt
  refine ⟨_, hget, fun b hb => ?_⟩
  rcases List.mem_iff_getElem?.mp hb with ⟨j, hj⟩
  have hjlt := (List.getElem?_eq_some_iff.mp hj).1
  have hbefore : Before ascendingSort (lineAt blocks (iMin ascendingSort blocks)) (lineAt blocks j) :=
    hmin j (by omega)
  simpa [lineAt, hget, hj] using hbefore

/-- Taking the line of block `i` moves the lines it stands for on by one. -/
theorem mergeStep_blockOf {l : Line} {t : List Line}
    (hwf : ∀ ls ∈ lss, Wf ls) (hi : lss[i]? = some (l :: t)) :
    mergeStep (lss.map blockOf) i (blockOf (l :: t)) = (KMerge.advance lss i t).map blockOf := by
  unfold mergeStep KMerge.advance
  cases t with
  | nil => simp [blockOf, getline, List.eraseIdx_map]
  | cons l' t =>
    have hl' : newline ∉ l' := (hwf _ (List.mem_of_getElem? hi)).2 l' (by simp)
    have hget : getline (blockOf (l :: l' :: t)).file (blockOf (l :: l' :: t)).line =
        (l', { rest := encode t, good := true }) := by
      simpa [blockOf] using getline_line hl' (encode t) l
    simp only [hget, if_true, List.map_set, reduceCtorEq, if_false]
    rfl

theorem advance_wf {l : Line} {t : List Line}
    (hwf : ∀ ls ∈ lss, Wf ls) (hi : lss[i]? = some (l :: t)) :
    ∀ ls ∈ KMerge.advance lss i t, Wf ls := by
  intro ls hls
  unfold KMerge.advance at hls
  split_ifs at hls with ht
  · exact hwf ls (List.mem_of_mem_eraseIdx hls)
  · rcases List.mem_or_eq_of_mem_set hls with h | rfl
    · exact hwf ls h
    · exact ⟨ht, fun x hx => (hwf _ (List.mem_of_getElem? hi)).2 x (List.mem_cons_of_mem _ hx)⟩

/-- On blocks of lines the merge loop writes the lines of a k-way merge. -/
theorem mergeBlocks_eq (hwf : ∀ ls ∈ lss, Wf ls) :
    ∃ out, KMerge (Before ascendingSort) lss out ∧
      mergeBlocks ascendingSort (lss.map blockOf) = encode out := by
  -- the loop runs once per line
  induction hn : lss.flatten.length generalizing lss with
  | zero =>
    have hnil : lss = [] := by
      cases lss with
      | nil => rfl
      | cons ls lss =>
        have hne := (hwf ls List.mem_cons_self).1
        simp_all
    subst hnil
    exact ⟨[], .done, mergeBlocks_nil ascendingSort⟩
  | succ n ih =>
    have hne : lss.map blockOf ≠ [] := by
      rintro h
      simp_all
    rcases iMin_spec ascendingSort hne with ⟨block, hget, hmin⟩
    set i := iMin ascendingSort (lss.map blockOf) with hi
    obtain ⟨ls, hls, rfl⟩ : ∃ ls, lss[i]? = some ls ∧ blockOf ls = block := by
      simpa using hget
    rcases List.exists_cons_of_ne_nil (hwf _ (List.mem_of_getElem? hls)).1 with ⟨l, t, rfl⟩
    have hlen := (KMerge.flatten_advance hls).length_eq
    rcases ih (advance_wf hwf hls) (by rw [List.length_cons] at hlen; omega) with
      ⟨out, hmerge, hout⟩
    refine ⟨l :: out, .take i l t hls (fun ls' hls' y hy => ?_) hmerge, ?_⟩
    · have := hmin (blockOf ls') (List.mem_map_of_mem hls')
      obtain ⟨t', rfl⟩ : ∃ t', ls' = y :: t' := by
        cases ls' with
        | nil => simp at hy
        | cons z t' => simp at hy; exact ⟨t', by rw [hy]⟩
      simpa [blockOf] using this
    · rw [mergeBlocks_of_get ascendingSort hget, ← hi, mergeStep_blockOf hwf hls, hout, encode_cons]
      rfl

/-! ## The reading loop -/

/-- The blocks that `sortedBlocks` builds out of `lss`. -/
def blocksOf (lss : List (List Line)) : List Block :=
  lss.map (sortedBlock ascendingSort)

/-- What the reading loop keeps: finished blocks, the running sorter, the block being
filled and the unread input together are the lines of the input, in order. -/
structure FillInv (input : List UInt8) (lss : List (List Line)) (st : Filling) : Prop where
  blocks : st.blocks = blocksOf ascendingSort lss
  done_wf : ∀ ls ∈ lss, Wf ls
  sorter_wf : ∀ ls ∈ st.sorter, Wf ls
  filling_wf : ∀ l ∈ st.fillingLines, newline ∉ l
  size : st.fillingBlockSize = (st.fillingLines.map List.length).sum
  ended : st.input.good = false → st.input.rest = []
  lines : lss.flatten ++ st.sorter.getD [] ++ st.fillingLines ++ inputLines st.input.rest =
    inputLines input

/-- Reading one line moves it from the input to the block being filled. -/
theorem FillInv.read {input : List UInt8} {lss : List (List Line)} {st : Filling}
    (hinv : FillInv ascendingSort input lss st) (hgood : st.input.good = true) :
    let (line, rest) := getline st.input []
    FillInv ascendingSort input lss
      (if rest.good || !line.isEmpty then
        { st with
          input := rest
          fillingBlockSize := st.fillingBlockSize + line.length
          fillingLines := st.fillingLines ++ [line] }
      else { st with input := rest }) := by
  have hlines := hinv.lines
  rcases getline_cases hgood [] with ⟨seg, rest, hseg, heq, hget⟩ | ⟨hnone, hget⟩
  · -- a terminated line, possibly empty
    rw [hget]
    rw [heq, inputLines_append hseg] at hlines
    simp only [Bool.true_or, if_true]
    exact
      { hinv with
        filling_wf := by
          intro l hl
          rcases List.mem_append.mp hl with hl | hl
          · exact hinv.filling_wf l hl
          · rw [List.mem_singleton.mp hl]; exact hseg
        size := by simp [hinv.size]
        ended := by simp
        lines := by simpa using hlines }
  · -- the rest of the input, kept only when it is not empty
    rw [hget]
    rw [inputLines_of_not_mem hnone] at hlines
    cases hrest : st.input.rest with
    | nil =>
      simp only [List.isEmpty_nil, Bool.not_true, Bool.or_self, Bool.false_eq_true, if_false]
      rw [hrest] at hlines
      exact { hinv with ended := by simp, lines := by simpa using hlines }
    | cons =>
      simp only [List.isEmpty_cons, Bool.not_false, Bool.or_true, if_true]
      rw [hrest] at hlines hnone
      exact
        { hinv with
          filling_wf := by
            intro l hl
            rcases List.mem_append.mp hl with hl | hl
            · exact hinv.filling_wf l hl
            · rw [List.mem_singleton.mp hl]; exact hnone
          size := by simp [hinv.size]
          ended := by simp
          lines := by simpa using hlines }

/-- Starting a sorter on the full block. -/
theorem FillInv.flush {input : List UInt8} {st : Filling}
    (hinv : FillInv ascendingSort input lss st) (hne : st.fillingLines ≠ []) :
    FillInv ascendingSort input (lss ++ st.sorter.toList)
      { input := st.input
        fillingLines := []
        fillingBlockSize := 0
        sorter := some st.fillingLines
        blocks := collect ascendingSort st.sorter st.blocks } where
  blocks := by
    cases hs : st.sorter <;> simp [collect, hinv.blocks, blocksOf]
  done_wf := by
    intro ls hls
    rcases List.mem_append.mp hls with hls | hls
    · exact hinv.done_wf ls hls
    · exact hinv.sorter_wf ls (by simpa using hls)
  sorter_wf := by
    intro ls hls
    cases hls
    exact ⟨hne, hinv.filling_wf⟩
  filling_wf := by simp
  size := by simp
  ended := hinv.ended
  lines := by
    rw [← hinv.lines]
    cases hs : st.sorter <;> simp

theorem FillInv.step {input : List UInt8} {lss : List (List Line)} {st : Filling} {blockSize : ℕ}
    (hpos : 0 < blockSize) (hinv : FillInv ascendingSort input lss st)
    (hgood : st.input.good = true) :
    ∃ lss', FillInv ascendingSort input lss' (fillStep ascendingSort blockSize st) := by
  have hread := hinv.read ascendingSort hgood
  unfold fillStep
  dsimp only at hread ⊢
  generalize (if ((getline st.input []).2.good || !(getline st.input []).1.isEmpty) = true then
    _ else _ : Filling) = st' at hread ⊢
  split_ifs with hfull
  · -- a full block has a byte in it, hence a line
    refine ⟨_, hread.flush ascendingSort fun hnil => ?_⟩
    have := hread.size
    simp [hnil] at this
    omega
  · exact ⟨lss, hread⟩

theorem FillInv.loop {input : List UInt8} {blockSize : ℕ} (hpos : 0 < blockSize) (st : Filling) :
    ∀ lss, FillInv ascendingSort input lss st →
      ∃ lss', FillInv ascendingSort input lss' (fillLoop ascendingSort blockSize st) ∧
        (fillLoop ascendingSort blockSize st).input.good = false := by
  induction st using fillLoop.induct ascendingSort blockSize with
  | case1 st hgood ih =>
    intro lss hinv
    rw [fillLoop, if_pos hgood]
    rcases hinv.step ascendingSort hpos hgood with ⟨lss', hinv'⟩
    exact ih lss' hinv'
  | case2 st hgood =>
    intro lss hinv
    rw [fillLoop, if_neg hgood]
    exact ⟨lss, hinv, by simpa using hgood⟩

/-- The blocks of an input stand for its lines. -/
theorem sortedBlocks_eq {blockSize : ℕ} (hpos : 0 < blockSize) (input : List UInt8) :
    ∃ lss, sortedBlocks ascendingSort blockSize input = blocksOf ascendingSort lss ∧
      (∀ ls ∈ lss, Wf ls) ∧ lss.flatten.Perm (inputLines input) := by
  have h0 : FillInv ascendingSort input []
      { input := { rest := input, good := true }
        fillingLines := []
        fillingBlockSize := 0
        sorter := none
        blocks := [] } :=
    { blocks := rfl
      done_wf := by simp
      sorter_wf := by simp
      filling_wf := by simp
      size := rfl
      ended := by simp
      lines := by simp }
  rcases FillInv.loop ascendingSort hpos _ _ h0 with ⟨lss, hinv, hend⟩
  unfold sortedBlocks
  dsimp only
  generalize fillLoop ascendingSort blockSize _ = st at hinv hend ⊢
  have hlines := hinv.lines
  rw [hinv.ended hend, show inputLines [] = [] from rfl, List.append_nil] at hlines
  -- the block being filled goes in front of the running sorter
  set last := if st.fillingLines.isEmpty then [] else [st.fillingLines] with hlast
  have hflat : last.flatten = st.fillingLines := by
    cases hf : st.fillingLines <;> simp [hlast, hf]
  have hsorter : st.sorter.toList.flatten = st.sorter.getD [] := by
    cases st.sorter <;> simp
  refine ⟨lss ++ last ++ st.sorter.toList, ?_, ?_, ?_⟩
  · cases hf : st.fillingLines <;> cases st.sorter <;>
      simp [collect, hinv.blocks, blocksOf, hlast, hf]
  · intro ls hls
    rw [List.mem_append, List.mem_append] at hls
    rcases hls with (hls | hls) | hls
    · exact hinv.done_wf ls hls
    · have hne : st.fillingLines ≠ [] ∧ ls = st.fillingLines := by
        cases hf : st.fillingLines <;> simp_all
      rw [hne.2]
      exact ⟨hne.1, hinv.filling_wf⟩
    · exact hinv.sorter_wf ls (by simpa using hls)
  · rw [← hlines, List.flatten_append, List.flatten_append, hflat, hsorter, List.append_assoc,
      List.append_assoc]
    exact List.perm_append_comm.append_left _

/-! ## The whole program -/

/-- Merging the blocks in any order writes the sorted lines. -/
theorem mergeBlocks_of_perm (hwf : ∀ ls ∈ lss, Wf ls) (hperm : blocks.Perm (blocksOf ascendingSort lss))
    {sorted : List Line} (hsorted : sorted.Pairwise (Before ascendingSort))
    (hlines : sorted.Perm lss.flatten) : mergeBlocks ascendingSort blocks = encode sorted := by
  -- the same lines in another order of the blocks
  obtain ⟨lss', rfl, hlss'⟩ : ∃ lss', blocks = blocksOf ascendingSort lss' ∧ lss'.Perm lss := by
    have h := congrFun₂ (List.eq_map_comp_perm (sortedBlock ascendingSort)) blocks lss
    exact h.mpr hperm
  have hwf' : ∀ ls ∈ lss'.map (sortLines ascendingSort), Wf ls := by
    intro ls hls
    rcases List.mem_map.mp hls with ⟨ls₀, h₀, rfl⟩
    have hw := hwf ls₀ (hlss'.subset h₀)
    have hp := sortLines_perm ascendingSort ls₀
    refine ⟨fun hnil => ?_, fun l hl => hw.2 l (hp.subset hl)⟩
    rw [hnil] at hp
    exact hw.1 hp.nil_eq.symm
  have hblocks : blocksOf ascendingSort lss' = (lss'.map (sortLines ascendingSort)).map blockOf := by
    rw [List.map_map]; rfl
  rcases mergeBlocks_eq ascendingSort hwf' with ⟨out, hmerge, hout⟩
  rw [hblocks, hout]
  congr 1
  refine hmerge.eq_of_perm (fun ls hls => ?_) hsorted ?_
  · rcases List.mem_map.mp hls with ⟨ls₀, -, rfl⟩
    exact sortLines_pairwise ascendingSort ls₀
  · have hflat : (lss'.map (sortLines ascendingSort)).flatten.Perm lss'.flatten := by
      refine List.Perm.flatten_congr ?_
      rw [List.forall₂_map_left_iff, List.forall₂_same]
      exact fun ls _ => sortLines_perm ascendingSort ls
    exact hlines.trans (hlss'.flatten.symm.trans hflat.symm)

/-- The external sort is correct: there is one ascending arrangement of the input's
lines that the program writes for every threshold and every order of the blocks,
and with `-r` it writes the same lines in reverse. -/
theorem external_sort_correct (input : List UInt8) :
    ∃ lines : List Line, lines.Perm (inputLines input) ∧ (∀ l ∈ lines, newline ∉ l) ∧
      lines.Pairwise (· ≤ ·) ∧ lines.reverse.Pairwise (· ≥ ·) ∧
      ∀ blockSize, 0 < blockSize → ∀ blocks,
        (blocks.Perm (sortedBlocks true blockSize input) →
          mergeBlocks true blocks = encode lines) ∧
        (blocks.Perm (sortedBlocks false blockSize input) →
          mergeBlocks false blocks = encode lines.reverse) := by
  have hperm := sortLines_perm true (inputLines input)
  have hasc := sortLines_pairwise true (inputLines input)
  have hdesc : (sortLines true (inputLines input)).reverse.Pairwise (Before false) := by
    rw [List.pairwise_reverse]
    exact hasc.imp fun h => (before_iff false).mpr ((before_iff true).mp h)
  refine ⟨sortLines true (inputLines input), hperm, fun l hl => ?_, ?_, ?_, ?_⟩
  · -- the lines are those of the blocks, for a threshold of one byte as for any other
    rcases sortedBlocks_eq true one_pos input with ⟨lss, -, hwf, hlss⟩
    rcases List.mem_flatten.mp (hlss.symm.subset (hperm.subset hl)) with ⟨ls, hls, hl⟩
    exact (hwf ls hls).2 l hl
  · exact hasc.imp (before_iff true).mp
  · exact hdesc.imp (before_iff false).mp
  · intro blockSize hpos blocks
    constructor
    · intro hblocks
      rcases sortedBlocks_eq true hpos input with ⟨lss, heq, hwf, hlss⟩
      exact mergeBlocks_of_perm true hwf (heq ▸ hblocks) hasc (hperm.trans hlss.symm)
    · intro hblocks
      rcases sortedBlocks_eq false hpos input with ⟨lss, heq, hwf, hlss⟩
      exact mergeBlocks_of_perm false hwf (heq ▸ hblocks) hdesc
        ((List.reverse_perm _).trans (hperm.trans hlss.symm))

/-- The output for a three-line input whose last line is not terminated, with a
threshold that puts every line into a block of its own. -/
theorem external_sort_b_a_c :
    ∃ lines : List Line, lines.Perm (inputLines [98, newline, 97, newline, 99]) ∧
      mergeBlocks true (sortedBlocks true 1 [98, newline, 97, newline, 99]) = encode lines ∧
      mergeBlocks false (sortedBlocks false 1 [98, newline, 97, newline, 99]) =
        encode lines.reverse := by
  rcases external_sort_correct [98, newline, 97, newline, 99] with ⟨lines, hperm, -, -, -, hout⟩
  exact ⟨lines, hperm, (hout 1 one_pos _).1 (.refl _), (hout 1 one_pos _).2 (.refl _)⟩

end SysProg.Sort
