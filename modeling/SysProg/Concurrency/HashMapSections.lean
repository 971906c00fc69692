import Mathlib.Tactic
import SysProg.Concurrency.HashMapThreads

/-!
# The sections of the lock-based hash map

What a thread does to the nodes of a bucket while it holds the mutex, step by step. A section
has a footprint: the nodes of its bucket, and the node that it has allocated and not linked yet
or unlinked and not deleted yet. It never leaves its footprint, apart from what `new` returns.

* `Point.status` — whether the section has taken effect, and with which result;
* `Does` — the effect on the values of the bucket;
* `Holds` — what is known at each step; `Step` — what one step does;
* `advance_step` — no step of a section is an error, and every step is a `Step`.
-/

namespace SysProg.HashMap

open LinkedCells

variable {nodes nodes' : Cells ℤ} {s fresh node x y : ℕ} {q q' post : List ℕ} {p p' : Point} {v : ℤ}
  {vs vs' line : List ℤ} {c d : Cell ℤ}

/-! ## Effects -/

/-- A section before and after it has taken effect. -/
def Point.status : Point → Section ⊕ Res
  | .insertNew value _ | .insertValue value _ _ | .insertLoad value _ _ | .insertNext value _ _ _
  | .insertLink value _ _ => .inl (.insert value)
  | .removeTest value _ | .removePeek value _ | .removeCompare value _ _ | .removeTake value _
  | .removeFollow value _ _ | .removeSkip value _ _ _ | .removeLink value _ _ _
  | .removeAdvance value _ => .inl (.remove value)
  | .removeDelete _ => .inr (.code 0)
  | .lookupFirst value _ | .lookupCompare value _ | .lookupAdvance value _ => .inl (.lookup value)
  | .printFirst bucket _ | .printValue bucket _ _ | .printAdvance bucket _ _ =>
      .inl (.print bucket)
  | .leave result => .inr result

/-- A section with this result takes the values of its bucket from `vs` to `vs'`. -/
def Does : Section → Res → List ℤ → List ℤ → Prop
  | .insert v, .code c, vs, vs' => (c = 0 ∧ vs' = v :: vs) ∨ (c = 1 ∧ vs' = vs)
  | .remove v, .code c, vs, vs' =>
      (c = 0 ∧ (vs : Multiset ℤ) = v ::ₘ (vs' : Multiset ℤ)) ∨ (c = 1 ∧ v ∉ vs ∧ vs' = vs)
  | .lookup v, .code c, vs, vs' => vs' = vs ∧ ((c = 0 ∧ v ∈ vs) ∨ (c = 1 ∧ v ∉ vs))
  | .print _, .line line, vs, vs' => vs' = vs ∧ line = vs
  | _, _, _, _ => False

/-- A step leaves the values alone, or is the one at which the section takes effect. -/
def Outcome (p p' : Point) (vs vs' : List ℤ) : Prop :=
  (p'.status = p.status ∧ vs' = vs) ∨
    ∃ a r, p.status = .inl a ∧ p'.status = .inr r ∧ Does a r vs vs'

/-! ## What a section knows -/

/-- The node that only the section knows. -/
def Point.owned : Point → Option ℕ
  | .insertValue _ _ insertion | .insertLoad _ _ insertion | .insertNext _ _ insertion _
  | .insertLink _ _ insertion => some insertion
  | .removeDelete deletion => some deletion
  | _ => none

/-- The nodes `post` come after `node` in the bucket. -/
def Behind (s : ℕ) (q : List ℕ) (node : ℕ) (post : List ℕ) : Prop :=
  ∃ pre, s :: q = pre ++ node :: post

/-- The search for `v` has passed `node`: if the bucket has the value, it is further behind. -/
def Passed (nodes : Cells ℤ) (s : ℕ) (q : List ℕ) (v : ℤ) (node : ℕ) (post : List ℕ) : Prop :=
  Behind s q node post ∧ (v ∈ values nodes q → v ∈ values nodes post)

/-- `line` has the values up to `node`. -/
def Printed (nodes : Cells ℤ) (s : ℕ) (q : List ℕ) (line : List ℤ) (node : ℕ) (post : List ℕ) :
    Prop :=
  Behind s q node post ∧ line ++ values nodes post = values nodes q

/-- What is known before each step, in the bucket with sentinel `s` and the nodes `q`. -/
def At (nodes : Cells ℤ) (s : ℕ) (q : List ℕ) : Point → Prop
  | .insertNew _ sentinel | .insertValue _ sentinel _ | .lookupFirst _ sentinel
  | .printFirst _ sentinel => sentinel = s
  | .insertLoad v sentinel x => sentinel = s ∧ ∃ c, nodes x = some c ∧ c.value = v
  | .insertNext v sentinel x next => sentinel = s ∧ (∃ c, nodes x = some c ∧ c.value = v) ∧
      ∃ d, nodes s = some d ∧ d.next = next
  | .insertLink v sentinel x => sentinel = s ∧ ∃ d, nodes s = some d ∧ nodes x = some ⟨v, d.next⟩
  | .removeTest v node => ∃ post, Passed nodes s q v node post
  | .removePeek v node => ∃ y post, Passed nodes s q v node (y :: post)
  | .removeCompare v node next => ∃ post, Passed nodes s q v node (next :: post)
  | .removeTake v node => ∃ y post d, Passed nodes s q v node (y :: post) ∧
      nodes y = some d ∧ d.value = v
  | .removeFollow v node deletion => ∃ post d, Passed nodes s q v node (deletion :: post) ∧
      nodes deletion = some d ∧ d.value = v
  | .removeSkip v node deletion next => next = deletion ∧ ∃ post d,
      Passed nodes s q v node (deletion :: post) ∧ nodes deletion = some d ∧ d.value = v
  | .removeLink v node deletion after => ∃ post d, Passed nodes s q v node (deletion :: post) ∧
      nodes deletion = some d ∧ d.value = v ∧ d.next = after
  | .removeAdvance v node => ∃ y post, Behind s q node (y :: post) ∧ Passed nodes s q v y post
  | .lookupCompare v node => ∃ before post, Passed nodes s q v before (node :: post)
  | .lookupAdvance v node => ∃ post, Passed nodes s q v node post
  | .printValue _ node line => ∃ before post, Printed nodes s q line before (node :: post)
  | .printAdvance _ node line => ∃ post, Printed nodes s q line node post
  | .removeDelete _ | .leave _ => True

/-- The bucket with sentinel `s` and the nodes `q` while a section is at `p`. -/
structure Holds (nodes : Cells ℤ) (s : ℕ) (q : List ℕ) (p : Point) : Prop where
  chain : Chain nodes s (s :: q)
  nodup : (s :: q).Nodup
  owned : ∀ x, p.owned = some x → x ∉ s :: q ∧ x ≠ 0 ∧ nodes x ≠ none
  known : At nodes s q p

/-- The nodes of the bucket and the node of the section. -/
def Footprint (s : ℕ) (q : List ℕ) (p : Point) (y : ℕ) : Prop :=
  y ∈ s :: q ∨ p.owned = some y

/-- One step of a section: it stays in its footprint and frees what it drops. -/
structure Step (nodes : Cells ℤ) (s : ℕ) (q : List ℕ) (p : Point) (nodes' : Cells ℤ) (q' : List ℕ)
    (p' : Point) : Prop where
  holds : Holds nodes' s q' p'
  outcome : Outcome p p' (values nodes q) (values nodes' q')
  frame : ∀ y, ¬ Footprint s q p y → ¬ Footprint s q' p' y → nodes' y = nodes y
  grows : ∀ y, Footprint s q' p' y → Footprint s q p y ∨ (nodes y = none ∧ y ≠ 0)
  frees : ∀ y, Footprint s q p y → ¬ Footprint s q' p' y → nodes' y = none

/-! ## Frame -/

theorem Behind.mem (h : Behind s q node post) (hy : y ∈ post) : y ∈ q := by
  rcases h with ⟨pre, hpre⟩
  cases pre with
  | nil => exact (List.cons.inj hpre).2 ▸ hy
  | cons =>
    rw [(List.cons.inj hpre).2]
    simp [hy]

theorem Passed.congr (h : Passed nodes s q v node post) (hsame : ∀ y ∈ s :: q, nodes' y = nodes y) :
    Passed nodes' s q v node post := by
  refine ⟨h.1, ?_⟩
  rw [values_congr fun y hy => hsame y (.tail _ hy),
    values_congr fun y hy => hsame y (.tail _ (h.1.mem hy))]
  exact h.2

theorem Printed.congr (h : Printed nodes s q line node post)
    (hsame : ∀ y ∈ s :: q, nodes' y = nodes y) : Printed nodes' s q line node post := by
  refine ⟨h.1, ?_⟩
  rw [values_congr fun y hy => hsame y (.tail _ hy),
    values_congr fun y hy => hsame y (.tail _ (h.1.mem hy))]
  exact h.2

/-- What is known depends on the footprint only. -/
theorem At.congr (h : At nodes s q p) (hsame : ∀ y, Footprint s q p y → nodes' y = nodes y) :
    At nodes' s q p := by
  have hq : ∀ y ∈ s :: q, nodes' y = nodes y := fun y hy => hsame y (.inl hy)
  have hs := hq s List.mem_cons_self
  have hown : ∀ x, p.owned = some x → nodes' x = nodes x := fun x hx => hsame x (.inr hx)
  have hpassed : ∀ v node post, Passed nodes s q v node post → Passed nodes' s q v node post :=
    fun _ _ _ h => h.congr hq
  have hprinted : ∀ line node post, Printed nodes s q line node post →
      Printed nodes' s q line node post := fun _ _ _ h => h.congr hq
  have hfirst : ∀ v node y post, Passed nodes s q v node (y :: post) → nodes' y = nodes y :=
    fun _ _ _ _ h => hq _ (.tail _ (h.1.mem List.mem_cons_self))
  cases p <;> grind [At, Point.owned]

theorem Holds.congr (h : Holds nodes s q p) (hsame : ∀ y, Footprint s q p y → nodes' y = nodes y) :
    Holds nodes' s q p := by
  refine ⟨h.chain.congr fun y hy => hsame y (.inl hy), h.nodup, ?_, h.known.congr hsame⟩
  intro x hx
  rcases h.owned x hx with ⟨hnot, hne, halloc⟩
  rw [hsame x (.inr hx)]
  exact ⟨hnot, hne, halloc⟩

/-! ## Steps -/

theorem update_off {l : List ℕ} {o : Option (Cell ℤ)} (hnot : x ∉ l) :
    ∀ y ∈ l, Function.update nodes x o y = nodes y := by
  intro y hy
  refine Function.update_of_ne ?_ _ _
  rintro rfl
  exact hnot hy

/-- A step that keeps the footprint. -/
theorem Step.within (hholds : Holds nodes' s q' p')
    (houtcome : Outcome p p' (values nodes q) (values nodes' q'))
    (hfoot : ∀ y, Footprint s q' p' y ↔ Footprint s q p y)
    (hframe : ∀ y, ¬ Footprint s q p y → nodes' y = nodes y) : Step nodes s q p nodes' q' p' :=
  ⟨hholds, houtcome, fun y hy _ => hframe y hy, fun y hy => .inl ((hfoot y).mp hy),
    fun y hy hnot => absurd ((hfoot y).mpr hy) hnot⟩

/-- A load. -/
theorem Step.load (h : Holds nodes s q p) (howned : p'.owned = p.owned) (hknown : At nodes s q p')
    (houtcome : Outcome p p' (values nodes q) (values nodes q)) : Step nodes s q p nodes q p' := by
  refine .within ⟨h.chain, h.nodup, ?_, hknown⟩ houtcome ?_ fun _ _ => rfl
  · rw [howned]
    exact h.owned
  · intro y
    rw [Footprint, Footprint, howned]

/-- The next step is no error and stays in the footprint. -/
def Advances (nodes : Cells ℤ) (fresh s : ℕ) (q : List ℕ) (p : Point) : Prop :=
  ∃ nodes' p' q', advance nodes fresh p = some (nodes', p') ∧ Step nodes s q p nodes' q' p'

/-- A load before the section takes effect. -/
theorem Advances.load (h : Holds nodes s q p) (p' : Point)
    (hadvance : advance nodes fresh p = some (nodes, p')) (howned : p'.owned = p.owned)
    (hstatus : p'.status = p.status) (hknown : At nodes s q p') : Advances nodes fresh s q p :=
  ⟨nodes, p', q, hadvance, .load h howned hknown (.inl ⟨hstatus, rfl⟩)⟩

/-- A store to the node of the section. -/
theorem Step.store (h : Holds nodes s q p) (hx : p.owned = some x) (hx' : p'.owned = some x)
    (hstatus : p'.status = p.status)
    (hknown : nodes s = Function.update nodes x (some c) s →
      At (Function.update nodes x (some c)) s q p') :
    Step nodes s q p (Function.update nodes x (some c)) q p' := by
  rcases h.owned x hx with ⟨hnot, hne, -⟩
  have hsame : ∀ y ∈ s :: q, Function.update nodes x (some c) y = nodes y := update_off hnot
  refine .within ⟨h.chain.congr hsame, h.nodup, ?_, hknown (hsame s List.mem_cons_self).symm⟩
    (.inl ⟨hstatus, values_congr fun y hy => hsame y (.tail _ hy)⟩) ?_ ?_
  · intro y hy
    rcases Option.some.inj (hx'.symm.trans hy) with rfl
    rw [Function.update_self]
    exact ⟨hnot, hne, Option.some_ne_none c⟩
  · intro y
    rw [Footprint, Footprint, hx, hx']
  · intro y hy
    refine Function.update_of_ne ?_ _ _
    rintro rfl
    exact hy (.inr hx)

/-- The node leads to those behind it. -/
theorem Behind.next (h : Behind s q node post) (hc : Chain nodes s (s :: q)) :
    ∃ c, nodes node = some c ∧ Chain nodes c.next post := by
  rcases h with ⟨pre, hpre⟩
  rw [hpre] at hc
  rcases hc.drop with ⟨-, -, c, hnode, hrest⟩
  exact ⟨c, hnode, hrest⟩

theorem Passed.start (nodes : Cells ℤ) (s : ℕ) (q : List ℕ) (v : ℤ) : Passed nodes s q v s q :=
  ⟨⟨[], rfl⟩, id⟩

/-- One node further. -/
theorem Behind.advance (h : Behind s q node (y :: post)) : Behind s q y post := by
  rcases h with ⟨pre, hpre⟩
  exact ⟨pre ++ [node], by rw [hpre, List.append_assoc]; rfl⟩

theorem Passed.not_mem (h : Passed nodes s q v node []) : v ∉ values nodes q := by
  intro hmem
  cases h.2 hmem

/-- The value that is not in the next node is further behind. -/
theorem Passed.skip (h : Passed nodes s q v node (y :: post)) (hy : nodes y = some d)
    (hne : d.value ≠ v) (hmem : v ∈ values nodes q) : v ∈ values nodes post := by
  have hbehind := h.2 hmem
  rw [values_cons hy] at hbehind
  rcases List.mem_cons.mp hbehind with rfl | hbehind
  · exact absurd rfl hne
  · exact hbehind

/-! ### Insertion -/

/-- `new` returns null, or a node that nobody knows. -/
theorem insertNew_step {sentinel : ℕ} (h : Holds nodes s q (.insertNew v sentinel))
    (hfree : nodes fresh = none) :
    Advances nodes fresh s q (.insertNew v sentinel) := by
  have hs : sentinel = s := h.known
  by_cases hzero : fresh = 0
  · exact ⟨nodes, .leave (.code 1), q, by simp [advance, hzero],
      .load h rfl trivial (.inr ⟨_, _, rfl, rfl, .inr ⟨rfl, rfl⟩⟩)⟩
  · -- the new node is not in the list, whose nodes are all allocated
    have hnot : fresh ∉ s :: q := by
      intro hmem
      have hsome := h.chain.isSome hmem
      rw [hfree] at hsome
      cases hsome
    have hsame : ∀ y ∈ s :: q, Function.update nodes fresh (some ⟨0, 0⟩) y = nodes y :=
      update_off hnot
    refine ⟨_, .insertValue v sentinel fresh, q, by simp [advance, hzero],
      ⟨h.chain.congr hsame, h.nodup, ?_, hs⟩, ?_, ?_, ?_, ?_⟩
    · intro x hx
      rcases Option.some.inj hx with rfl
      rw [Function.update_self]
      exact ⟨hnot, hzero, Option.some_ne_none _⟩
    · exact .inl ⟨rfl, values_congr fun y hy => hsame y (.tail _ hy)⟩
    · intro y _ hy
      refine Function.update_of_ne ?_ _ _
      rintro rfl
      exact hy (.inr rfl)
    · rintro y (hy | hy)
      · exact .inl (.inl hy)
      · rcases Option.some.inj hy with rfl
        exact .inr ⟨hfree, hzero⟩
    · rintro y (hy | hy) hnot
      · exact absurd (.inl hy) hnot
      · cases hy

/-- The new node comes behind the sentinel. -/
theorem insertLink_step {sentinel : ℕ} (h : Holds nodes s q (.insertLink v sentinel x)) :
    Advances nodes fresh s q (.insertLink v sentinel x) := by
  rcases h.known with ⟨rfl, d, hs, hx⟩
  rcases h.owned x rfl with ⟨hnot, hne, -⟩
  have hxs : x ≠ sentinel := fun heq => hnot (heq ▸ List.mem_cons_self)
  -- without the new node the chain is the same
  have hsame : ∀ y ∈ sentinel :: q, Function.update nodes x none y = nodes y := update_off hnot
  have hc : Chain (Function.update nodes x none) sentinel (sentinel :: q) := h.chain.congr hsame
  have hback : linkAfter (Function.update nodes x none) sentinel x v d.next =
      setNext nodes sentinel x := by
    rw [linkAfter, Function.update_idem, ← hx, Function.update_eq_self]
  rcases hc.link (v := v) ((hsame _ List.mem_cons_self).trans hs) h.nodup
    (Function.update_self _ _ _) hne with ⟨hchain, hvalues⟩
  rw [hback, values_congr fun y hy => hsame y (.tail _ hy)] at hvalues
  rw [hback] at hchain
  have hnodup := List.nodup_cons.mp h.nodup
  simp only [List.mem_cons, not_or] at hnot
  refine ⟨_, .leave (.code 0), x :: q, by simp [advance, hs], .within ⟨hchain, ?_, ?_, trivial⟩
    (.inr ⟨_, _, rfl, rfl, .inl ⟨rfl, hvalues⟩⟩) ?_ ?_⟩
  · simp only [List.nodup_cons, List.mem_cons, not_or]
    exact ⟨⟨hxs.symm, hnodup.1⟩, hnot.2, hnodup.2⟩
  · intro y hy
    cases hy
  · intro y
    simp only [Footprint, Point.owned, List.mem_cons, Option.some.injEq, reduceCtorEq, or_false]
    tauto
  · intro y hy
    refine setNext_of_ne ?_
    rintro rfl
    exact hy (.inl List.mem_cons_self)

theorem insert_step (hstatus : p.status = .inl (.insert v))
    (h : Holds nodes s q p) (hallowed : p.allowed nodes fresh = true) :
    Advances nodes fresh s q p := by
  cases p with
  | insertNew =>
    exact insertNew_step h (Option.isNone_iff_eq_none.mp hallowed)
  -- the stores go to the thread's own node
  | insertValue value sentinel x =>
    rcases Option.ne_none_iff_exists'.mp (h.owned x rfl).2.2 with ⟨c, hx⟩
    have hset : setValue nodes x value = Function.update nodes x (some { c with value := value }) := by
      rw [setValue, hx]
      rfl
    refine ⟨_, .insertLoad value sentinel x, q, by simp only [advance, hx]; rfl, ?_⟩
    rw [hset]
    exact .store h rfl rfl rfl fun _ => ⟨h.known, _, Function.update_self _ _ _, rfl⟩
  | insertLoad value sentinel x =>
    rcases h.known with ⟨rfl, hx⟩
    rcases h.chain with ⟨-, -, d, hs, -⟩
    exact .load h (.insertNext value sentinel x d.next) (by simp [advance, hs]) rfl rfl
      ⟨rfl, hx, d, hs, rfl⟩
  | insertNext value sentinel x next =>
    rcases h.known with ⟨rfl, ⟨c, hx, rfl⟩, d, hs, rfl⟩
    have hset : setNext nodes x d.next = Function.update nodes x (some { c with next := d.next }) := by
      rw [setNext, hx]
      rfl
    refine ⟨_, .insertLink c.value sentinel x, q, by simp only [advance, hx]; rfl, ?_⟩
    rw [hset]
    refine .store h rfl rfl rfl fun hsame => ⟨rfl, d, ?_, Function.update_self _ _ _⟩
    rw [← hsame]
    exact hs
  | insertLink => exact insertLink_step h
  | _ => cases hstatus

/-! ### Removal -/

/-- The node is taken out of the bucket, and only this section knows it now. -/
theorem removeLink_step {deletion after : ℕ} (h : Holds nodes s q (.removeLink v node deletion after)) :
    Advances nodes fresh s q (.removeLink v node deletion after) := by
  rcases h.known with ⟨post, d, hpassed, hy, rfl, rfl⟩
  rcases hpassed.1.next h.chain with ⟨c, hnode, -⟩
  rcases hpassed.1 with ⟨pre, hsplit⟩
  rcases cons_without hsplit with ⟨q', hsplit'⟩
  have hnodup := h.nodup
  rw [hsplit] at hnodup
  have hgone : deletion ∉ pre ++ node :: post := by
    have hperm : (pre ++ node :: deletion :: post).Perm (deletion :: (pre ++ node :: post)) := by
      refine List.Perm.trans ?_ List.perm_middle
      exact (List.Perm.swap _ _ _).append_left pre
    exact (List.nodup_cons.mp (hperm.nodup_iff.mp hnodup)).1
  have hne : deletion ≠ node := by
    rintro rfl
    exact hgone (by simp)
  -- `delete` comes later
  have hdelete : ∀ y ∈ pre ++ node :: post,
      setNext nodes node d.next y = unlinkAfter nodes node deletion d.next y := by
    intro z hz
    refine (Function.update_of_ne ?_ _ _).symm
    rintro rfl
    exact hgone hz
  have hchain : Chain (setNext nodes node d.next) s (s :: q') := by
    have hc := h.chain
    rw [hsplit] at hc
    rw [hsplit']
    exact (hc.unlink hy hnodup).congr hdelete
  have hvalues := values_without h.chain hsplit hsplit' hy h.nodup
  rw [← values_congr fun y hy => hdelete y (hsplit' ▸ List.mem_cons_of_mem _ hy)] at hvalues
  refine ⟨_, .removeDelete deletion, q', by simp [advance, hnode], .within
    ⟨hchain, ?_, ?_, trivial⟩ (.inr ⟨_, _, rfl, rfl, .inl ⟨rfl, hvalues⟩⟩) ?_ ?_⟩
  · rw [hsplit']
    refine hnodup.sublist ?_
    exact (List.sublist_cons_self deletion post).cons_cons node |>.append_left pre
  · intro y hy'
    rcases Option.some.inj hy' with rfl
    rw [setNext_of_ne hne, hy, hsplit']
    exact ⟨hgone, h.chain.ne_null (.tail _ (hpassed.1.mem List.mem_cons_self)), Option.some_ne_none d⟩
  · intro y
    simp only [Footprint, Point.owned, hsplit, hsplit', List.mem_append, List.mem_cons,
      Option.some.injEq, reduceCtorEq, or_false]
    tauto
  · intro y hy'
    refine setNext_of_ne ?_
    rintro rfl
    exact hy' (.inl (hsplit ▸ by simp))

theorem removeDelete_step {deletion : ℕ} (h : Holds nodes s q (.removeDelete deletion)) :
    Advances nodes fresh s q (.removeDelete deletion) := by
  rcases h.owned deletion rfl with ⟨hnot, -, halloc⟩
  rcases Option.ne_none_iff_exists'.mp halloc with ⟨d, hy⟩
  -- the deleted node is not in the list any more
  have hsame : ∀ y ∈ s :: q, Function.update nodes deletion none y = nodes y := update_off hnot
  refine ⟨_, .leave (.code 0), q, by simp [advance, hy], ⟨h.chain.congr hsame, h.nodup, ?_, trivial⟩,
    ?_, ?_, ?_, ?_⟩
  · intro x hx
    cases hx
  · exact .inl ⟨rfl, values_congr fun y hy => hsame y (.tail _ hy)⟩
  · intro y hy _
    refine Function.update_of_ne ?_ _ _
    rintro rfl
    exact hy (.inr rfl)
  · rintro y (hy | hy)
    · exact .inl (.inl hy)
    · cases hy
  · rintro y (hy | hy) hgone
    · exact absurd (.inl hy) hgone
    · rcases Option.some.inj hy with rfl
      exact Function.update_self _ _ _

theorem remove_step (hstatus : p.status = .inl (.remove v)) (h : Holds nodes s q p) :
    Advances nodes fresh s q p := by
  cases p with
  | removeTest value node =>
    rcases h.known with ⟨post, hpassed⟩
    rcases hpassed.1.next h.chain with ⟨c, hnode, hrest⟩
    -- the end of the list: no node has had the value
    rcases hrest.head_cases with ⟨hnext, rfl⟩ | ⟨hnext, d, post, rfl, -⟩
    · exact ⟨nodes, .leave (.code 1), q, by simp [advance, hnode, hnext], .load h rfl trivial
        (.inr ⟨_, _, rfl, rfl, .inr ⟨rfl, hpassed.not_mem, rfl⟩⟩)⟩
    · exact .load h (.removePeek value node) (by simp [advance, hnode, hnext]) rfl rfl
        ⟨_, _, hpassed⟩
  | removePeek value node =>
    rcases h.known with ⟨y, post, hpassed⟩
    rcases hpassed.1.next h.chain with ⟨c, hnode, rfl, -⟩
    exact .load h (.removeCompare value node c.next) (by simp [advance, hnode]) rfl rfl ⟨_, hpassed⟩
  | removeCompare value node next =>
    rcases h.known with ⟨post, hpassed⟩
    rcases hpassed.1.next h.chain with ⟨c, hnode, rfl, -, d, hy, -⟩
    by_cases hvalue : d.value = value
    · exact .load h (.removeTake value node) (by simp [advance, hy, hvalue]) rfl rfl
        ⟨_, _, d, hpassed, hy, hvalue⟩
    · exact .load h (.removeAdvance value node) (by simp [advance, hy, hvalue]) rfl rfl
        ⟨_, _, hpassed.1, hpassed.1.advance, hpassed.skip hy hvalue⟩
  | removeTake value node =>
    rcases h.known with ⟨y, post, d, hpassed, hy, hd⟩
    rcases hpassed.1.next h.chain with ⟨c, hnode, rfl, -⟩
    exact .load h (.removeFollow value node c.next) (by simp [advance, hnode]) rfl rfl
      ⟨_, d, hpassed, hy, hd⟩
  | removeFollow value node deletion =>
    rcases h.known with ⟨post, d, hpassed, hy, hd⟩
    rcases hpassed.1.next h.chain with ⟨c, hnode, rfl, -⟩
    exact .load h (.removeSkip value node c.next c.next) (by simp [advance, hnode]) rfl rfl
      ⟨rfl, _, d, hpassed, hy, hd⟩
  | removeSkip value node deletion next =>
    rcases h.known with ⟨rfl, post, d, hpassed, hy, hd⟩
    exact .load h (.removeLink value node next d.next) (by simp [advance, hy]) rfl rfl
      ⟨_, d, hpassed, hy, hd, rfl⟩
  | removeLink => exact removeLink_step h
  | removeAdvance value node =>
    rcases h.known with ⟨y, post, hbehind, hpassed⟩
    rcases hbehind.next h.chain with ⟨c, hnode, rfl, -⟩
    exact .load h (.removeTest value c.next) (by simp [advance, hnode]) rfl rfl ⟨_, hpassed⟩
  | _ => cases hstatus

/-! ### Lookup -/

/-- The test of the loop, after the nodes up to `node` have been passed. -/
theorem lookupTest_load (h : Holds nodes s q p) (hstatus : p.status = .inl (.lookup v))
    (howned : p.owned = none) (hpassed : Passed nodes s q v node post)
    (hrest : Chain nodes c.next post) : Step nodes s q p nodes q (lookupTest v c.next) := by
  unfold lookupTest
  rcases hrest.head_cases with ⟨hnext, rfl⟩ | ⟨hnext, d, post, rfl, -⟩
  · rw [if_pos hnext]
    exact .load h howned.symm trivial
      (.inr ⟨_, _, hstatus, rfl, rfl, .inr ⟨rfl, hpassed.not_mem⟩⟩)
  · rw [if_neg hnext]
    exact .load h howned.symm ⟨_, _, hpassed⟩ (.inl ⟨hstatus.symm, rfl⟩)

theorem lookup_step (hstatus : p.status = .inl (.lookup v)) (h : Holds nodes s q p) :
    Advances nodes fresh s q p := by
  cases p with
  | lookupFirst value sentinel =>
    rcases Sum.inl.inj hstatus with ⟨⟩
    rcases h.known with rfl
    have hpassed := Passed.start nodes sentinel q v
    rcases hpassed.1.next h.chain with ⟨c, hnode, hrest⟩
    exact ⟨nodes, _, q, by simp [advance, hnode], lookupTest_load h rfl rfl hpassed hrest⟩
  | lookupCompare value node =>
    rcases h.known with ⟨before, post, hpassed⟩
    rcases hpassed.1.next h.chain with ⟨c, hnode, rfl, -, d, hy, -⟩
    -- the value is found, or it is in none of the nodes passed
    by_cases hvalue : d.value = value
    · refine ⟨nodes, .leave (.code 0), q, by simp [advance, hy, hvalue], .load h rfl trivial ?_⟩
      refine .inr ⟨_, _, rfl, rfl, rfl, .inl ⟨rfl, ?_⟩⟩
      exact hvalue ▸ mem_values (hpassed.1.mem List.mem_cons_self) hy
    · exact .load h (.lookupAdvance value c.next) (by simp [advance, hy, hvalue]) rfl rfl
        ⟨_, hpassed.1.advance, hpassed.skip hy hvalue⟩
  | lookupAdvance =>
    rcases Sum.inl.inj hstatus with ⟨⟩
    rcases h.known with ⟨post, hpassed⟩
    rcases hpassed.1.next h.chain with ⟨c, hnode, hrest⟩
    exact ⟨nodes, _, q, by simp [advance, hnode], lookupTest_load h rfl rfl hpassed hrest⟩
  | _ => cases hstatus

/-! ### Printing -/

theorem printTest_load {bucket : ℕ} (h : Holds nodes s q p)
    (hstatus : p.status = .inl (.print bucket)) (howned : p.owned = none)
    (hprinted : Printed nodes s q line node post) (hrest : Chain nodes c.next post) :
    Step nodes s q p nodes q (printTest bucket c.next line) := by
  unfold printTest
  rcases hrest.head_cases with ⟨hnext, rfl⟩ | ⟨hnext, d, post, rfl, -⟩
  · rw [if_pos hnext]
    have hline := hprinted.2
    rw [values_nil, List.append_nil] at hline
    exact .load h howned.symm trivial (.inr ⟨_, _, hstatus, rfl, rfl, hline⟩)
  · rw [if_neg hnext]
    exact .load h howned.symm ⟨_, _, hprinted⟩ (.inl ⟨hstatus.symm, rfl⟩)

theorem print_step {bucket : ℕ} (hstatus : p.status = .inl (.print bucket)) (h : Holds nodes s q p) :
    Advances nodes fresh s q p := by
  cases p with
  | printFirst b sentinel =>
    rcases Sum.inl.inj hstatus with ⟨⟩
    rcases h.known with rfl
    have hprinted : Printed nodes sentinel q [] sentinel q := ⟨⟨[], rfl⟩, rfl⟩
    rcases hprinted.1.next h.chain with ⟨c, hnode, hrest⟩
    exact ⟨nodes, _, q, by simp [advance, hnode], printTest_load h rfl rfl hprinted hrest⟩
  | printValue b node line =>
    rcases h.known with ⟨before, post, hprinted⟩
    rcases hprinted.1.next h.chain with ⟨c, hnode, rfl, -, d, hy, -⟩
    -- the line grows by the value of the node
    refine ⟨nodes, .printAdvance b c.next (line ++ [d.value]), q, by simp [advance, hy],
      .load h rfl ⟨post, hprinted.1.advance, ?_⟩ (.inl ⟨rfl, rfl⟩)⟩
    rw [← hprinted.2, values_cons hy, List.append_assoc]
    rfl
  | printAdvance =>
    rcases Sum.inl.inj hstatus with ⟨⟩
    rcases h.known with ⟨post, hprinted⟩
    rcases hprinted.1.next h.chain with ⟨c, hnode, hrest⟩
    exact ⟨nodes, _, q, by simp [advance, hnode], printTest_load h rfl rfl hprinted hrest⟩
  | _ => cases hstatus

/-! ### All sections -/

/-- No step of a section is an error, and it stays in the footprint. -/
theorem advance_step (h : Holds nodes s q p) (hleave : ∀ result, p ≠ .leave result)
    (hallowed : p.allowed nodes fresh = true) :
    Advances nodes fresh s q p := by
  cases hstatus : p.status with
  | inl a =>
    cases a with
    | insert => exact insert_step hstatus h hallowed
    | remove => exact remove_step hstatus h
    | lookup => exact lookup_step hstatus h
    | print => exact print_step hstatus h
  | inr result =>
    cases p with
    | removeDelete => exact removeDelete_step h
    | leave result => exact absurd rfl (hleave result)
    | _ => cases hstatus

/-- A section at its start knows the sentinel. -/
theorem Section.start_holds (hc : Chain nodes s (s :: q)) (hnodup : (s :: q).Nodup) (a : Section) :
    Holds nodes s q (a.start s) := by
  refine ⟨hc, hnodup, ?_, ?_⟩
  · intro x hx
    cases a <;> cases hx
  · cases a with
    | remove value => exact ⟨q, Passed.start nodes s q value⟩
    | _ => exact rfl

theorem Section.start_status (s : ℕ) (a : Section) : (a.start s).status = .inl a := by
  cases a <;> rfl

end SysProg.HashMap
