import Mathlib.Algebra.Ring.Int.Defs
import Mathlib.Algebra.Ring.Nat
import NixStrixHalo.Library.TopK
import NixStrixHalo.Sglang.Int32

/-!
# Selecting pooled history tokens

`_topk_from_pooled_history_logits_hip` scores pools of `pool_size` consecutive tokens, selects the
best `topk / pool_size` pools of each row, expands them into tokens, appends the tokens after the
last whole pool and maps what it has through a page table or by an offset.

## The tensors of the source

`PooledTopk` holds the arguments of a call, and each definition below is one tensor of the source,
entry by entry. A row with no more pools than are to be selected skips the selection and takes them
all, so `selected` has two branches, which agree in what they select (`selected_of_le`,
`selected_of_lt`). Indexing is that of PyTorch, where a negative index counts from the end.

## What a call is for

`expected` says it with no reference to tensors: the tokens of the best pools and those of the tail,
mapped, and `-1` after them, with `TopK.best` for the selection (`PooledTopk.eq_expected`). Scores
are finite, so a score is an element of a linear order, and `-inf` is the bottom of `WithBot`.

An entry of a row is a token of the history, one of the tail, or none, by its position: positions
below the expanded pools are taken from these, and the tail follows directly
(`tokens_getElem?_history`, `tokens_getElem?_tail`).
-/

namespace Sglang

/-- A tensor of two dimensions; the entries outside its shape are never read. -/
structure Tensor2 (α : Type*) where
  rows : ℕ
  cols : ℕ
  entry : ℕ → ℕ → α

/-- An index into a dimension of size `n`: a negative one counts from the end, and one that is out
of range raises. -/
def wrapIndex (n : ℕ) (i : ℤ) : Option ℕ :=
  if 0 ≤ i ∧ i < n then some i.toNat
  else if -n ≤ i ∧ i < 0 then some (i + n).toNat
  else none

/-- An index that is not negative is not wrapped. -/
theorem wrapIndex_natCast {n i : ℕ} (h : i < n) : wrapIndex n i = some i := by
  rw [wrapIndex, if_pos (by omega), Int.toNat_natCast]

/-- `t[r, c]`. -/
def Tensor2.get? {α : Type} (t : Tensor2 α) (r c : ℤ) : Option α := do
  let row ← wrapIndex t.rows r
  let col ← wrapIndex t.cols c
  return t.entry row col

/-- The arguments of `_topk_from_pooled_history_logits_hip`. -/
structure PooledTopk (α : Type*) where
  logits : Tensor2 α
  groupLengths : ℕ → ℕ
  poolSize : ℕ
  topk : ℕ
  pageTable : Option (Tensor2 ℤ) := none
  topkOffsets : Option (ℕ → ℤ) := none
  seqLens : Option (ℕ → ℕ) := none
  rowStarts : Option (ℕ → ℕ) := none
  outRows : Option ℕ := none
  pageTableRowIndex : Option (ℕ → ℤ) := none

namespace PooledTopk

variable {α : Type*} [LinearOrder α] (q : PooledTopk α)

/-! ### The tensors of the call -/

/-- `group_topk`. -/
def groupTopk : ℕ := q.topk / q.poolSize

/-- `starts`. -/
def starts (r : ℕ) : ℕ := q.rowStarts.elim 0 fun starts ↦ starts r

/-- `rank`, the identity selection. -/
def rank : List ℤ := (List.range q.groupTopk).map (↑)

/-- `scores`: the logits, with `-inf` outside the row's groups. -/
def scores (r col : ℕ) : WithBot α :=
  if q.starts r ≤ col ∧ col < q.starts r + q.groupLengths r then (q.logits.entry r col : WithBot α)
  else ⊥

/-- `selected`: the groups of a row. -/
def selected (r : ℕ) : List ℤ :=
  if q.groupTopk < q.logits.cols then
    let selected := (TopK.argsort (q.scores r) q.logits.cols).take q.groupTopk
    let selected := (selected.map fun i : ℕ ↦ (i : ℤ) - q.starts r).insertionSort (· ≤ ·)
    if q.groupLengths r ≤ q.groupTopk then q.rank else selected
  else q.rank

/-- `out_cols`. -/
def outCols : ℕ := q.topk + if q.seqLens.isSome then q.poolSize - 1 else 0

/-- `history_len`. -/
def historyLen (r : ℕ) : ℕ := min (q.groupLengths r) q.groupTopk * q.poolSize

/-- `group_rank`. -/
def groupRank (col : ℕ) : ℤ := min (col / q.poolSize : ℕ) ((q.groupTopk : ℤ) - 1)

/-- `tail_valid`. -/
def tailValid (r col : ℕ) : Prop :=
  ∃ seqLens ∈ q.seqLens, 0 ≤ (col : ℤ) - q.historyLen r ∧
    (col : ℤ) - q.historyLen r < (seqLens r % q.poolSize : ℕ)

instance (r col : ℕ) : Decidable (q.tailValid r col) := by
  unfold tailValid
  infer_instance

/-- `valid`. -/
def valid (r col : ℕ) : Prop := col < q.historyLen r ∨ q.tailValid r col

instance (r col : ℕ) : Decidable (q.valid r col) := by
  unfold valid
  infer_instance

/-- `logical`: the token of an entry, and `0` where there is none. -/
def logical (r col : ℕ) : Option ℤ := do
  let i ← wrapIndex (q.selected r).length (q.groupRank col)
  let group ← (q.selected r)[i]?
  let logical := group * q.poolSize + (col % q.poolSize : ℕ)
  let logical := if q.tailValid r col then
      (q.groupLengths r * q.poolSize : ℕ) + ((col : ℤ) - q.historyLen r)
    else logical
  return if q.valid r col then logical else 0

/-- `page_rows`. -/
def pageRow (r : ℕ) : ℤ := q.pageTableRowIndex.elim r fun index ↦ index r

/-- `result`, before the entries that hold no token are masked. -/
def mapped (r : ℕ) (logical : ℤ) : Option ℤ :=
  match q.pageTable, q.topkOffsets with
  | some table, _ => table.get? (q.pageRow r) logical
  | none, some offsets => some (logical + offsets r)
  | none, none => some logical

/-- An entry of `result`. -/
def entry (r col : ℕ) : Option ℤ := do
  let mapped ← q.mapped r (← q.logical r col)
  return toInt32 (if q.valid r col then mapped else -1)

/-- `_topk_from_pooled_history_logits_hip`. Fewer rows than the input has hold only a single row,
which is then broadcast to none. -/
def topkFromPooledHistoryLogitsHip : Option (List (List ℤ)) := do
  let rows := q.logits.rows
  let result ← (List.range rows).mapM fun r ↦ (List.range q.outCols).mapM (q.entry r)
  match q.outRows with
  | none => return result
  | some outRows =>
    if rows ≤ outRows then
      return result ++ List.replicate (outRows - rows) (List.replicate q.outCols (-1))
    else if rows = 1 then return []
    else none

/-! ### What the call is for -/

/-- The tokens of some groups, in order. -/
def expand (poolSize : ℕ) (groups : List ℕ) : List ℕ :=
  groups.flatMap fun g ↦ (List.range poolSize).map (g * poolSize + ·)

/-- The tokens after the last whole group. -/
def tail (r : ℕ) : List ℕ :=
  q.seqLens.elim [] fun seqLens ↦ List.range' (q.groupLengths r * q.poolSize)
    (seqLens r - q.groupLengths r * q.poolSize)

/-- The best groups of a row, in ascending order. -/
def groups (r : ℕ) : List ℕ :=
  TopK.best (fun g ↦ q.logits.entry r (q.starts r + g)) (q.groupLengths r) q.groupTopk

/-- The tokens of a row: those of its best groups, and the live tail. -/
def tokens (r : ℕ) : List ℕ := expand q.poolSize (q.groups r) ++ q.tail r

/-- Where a token is found. -/
def mapToken (r token : ℕ) : ℤ :=
  match q.pageTable, q.topkOffsets with
  | some table, _ => table.entry ((wrapIndex table.rows (q.pageRow r)).getD 0) token
  | none, some offsets => token + offsets r
  | none, none => token

/-- The row of a call: its tokens, mapped, and `-1` after them. -/
def expectedRow (r : ℕ) : List ℤ :=
  (q.tokens r).map (fun token ↦ toInt32 (q.mapToken r token)) ++
    List.replicate (q.outCols - (q.tokens r).length) (-1)

/-- The rows of a call, and rows of `-1` after them. -/
def expected : List (List ℤ) :=
  (List.range q.logits.rows).map q.expectedRow ++
    List.replicate (q.outRows.getD q.logits.rows - q.logits.rows) (List.replicate q.outCols (-1))

/-- The calls that make sense. -/
structure Admissible : Prop where
  poolSize_pos : 0 < q.poolSize
  topk_pos : 0 < q.topk
  poolSize_dvd : q.poolSize ∣ q.topk
  window : ∀ r < q.logits.rows, q.starts r + q.groupLengths r ≤ q.logits.cols
  seqLens : ∀ seqLens ∈ q.seqLens, ∀ r < q.logits.rows, q.groupLengths r = seqLens r / q.poolSize
  /-- The page table has the rows and tokens that are looked up, the token `0` of the padding
  included. -/
  pageTable : ∀ table ∈ q.pageTable, ∀ r < q.logits.rows,
    (wrapIndex table.rows (q.pageRow r)).isSome ∧ 0 < table.cols ∧ ∀ token ∈ q.tokens r,
      token < table.cols
  outRows : ∀ outRows ∈ q.outRows, q.logits.rows ≤ outRows

variable {q} {r c : ℕ}

/-! ### The selected groups -/

/-- A row has as many groups as asked for, as far as there are groups. -/
theorem length_groups (q : PooledTopk α) (r : ℕ) :
    (q.groups r).length = min (q.groupLengths r) q.groupTopk := by
  rw [groups, TopK.length_best, min_comm]

/-- A row with no more groups than are selected has all of them. -/
theorem groups_eq_range (h : q.groupLengths r ≤ q.groupTopk) :
    q.groups r = List.range (q.groupLengths r) :=
  TopK.best_eq_range _ h

/-- Both branches give such a row the identity. -/
theorem selected_of_le (h : q.groupLengths r ≤ q.groupTopk) : q.selected r = q.rank := by
  simp only [selected, if_pos h, ite_self]

/-- The sorting branch puts the indices of the best scores back in order. -/
theorem selected_of_lt (hwindow : q.starts r + q.groupLengths r ≤ q.logits.cols)
    (h : q.groupTopk < q.groupLengths r) : q.selected r = (q.groups r).map (↑) := by
  have hcols : q.groupTopk < q.logits.cols := by omega
  have hperm : ((TopK.argsort (q.scores r) q.logits.cols).take q.groupTopk).Perm
      ((q.groups r).map (q.starts r + ·)) := by
    have htake := TopK.take_argsort_perm (q.scores r) q.logits.cols q.groupTopk
    rwa [show q.scores r = TopK.masked (q.logits.entry r) (q.starts r) (q.groupLengths r) from rfl,
      TopK.best_masked _ hwindow h.le] at htake
  have hshift : ((q.groups r).map (q.starts r + ·)).map (fun i : ℕ ↦ (i : ℤ) - q.starts r) =
      (q.groups r).map (↑) := by
    rw [List.map_map]
    refine List.map_congr_left fun g _ ↦ ?_
    rw [Function.comp_apply]
    omega
  have hsorted : ((q.groups r).map ((↑) : ℕ → ℤ)).Pairwise (· ≤ ·) := by
    rw [List.pairwise_map]
    exact (TopK.pairwise_best _ _ _).imp fun hlt ↦ by exact_mod_cast hlt.le
  rw [selected, if_pos hcols]
  dsimp only
  rw [if_neg (by omega)]
  refine List.Perm.eq_of_pairwise' (List.pairwise_insertionSort _ _) hsorted ?_
  exact (List.perm_insertionSort _ _).trans (hshift ▸ hperm.map _)

/-- The selection has the length that is asked for. -/
theorem length_selected (hwindow : q.starts r + q.groupLengths r ≤ q.logits.cols) :
    (q.selected r).length = q.groupTopk := by
  rcases le_or_gt (q.groupLengths r) q.groupTopk with hle | hlt
  · rw [selected_of_le hle, rank, List.length_map, List.length_range]
  · rw [selected_of_lt hwindow hlt, List.length_map, length_groups, min_eq_right hlt.le]

/-- **The selection starts with the best groups**, in either branch. -/
theorem selected_getElem? {j : ℕ} (hwindow : q.starts r + q.groupLengths r ≤ q.logits.cols)
    (hj : j < (q.groups r).length) : (q.selected r)[j]? = (q.groups r)[j]?.map (↑) := by
  rcases le_or_gt (q.groupLengths r) q.groupTopk with hle | hlt
  · have hlen := length_groups q r
    rw [selected_of_le hle, groups_eq_range hle, rank, List.getElem?_map,
      List.getElem?_range (by omega), List.getElem?_range (by omega)]
  · rw [selected_of_lt hwindow hlt, List.getElem?_map]

/-- No group is passed over for one of a lower score. -/
theorem score_le_of_mem_groups {g i : ℕ} (hg : g ∈ q.groups r) (hi : i < q.groupLengths r)
    (hout : i ∉ q.groups r) :
    q.logits.entry r (q.starts r + i) ≤ q.logits.entry r (q.starts r + g) := by
  rcases TopK.beats_of_mem_best hg hi hout with hlt | ⟨heq, -⟩
  · exact hlt.le
  · exact heq.ge

/-! ### The tokens of a row -/

/-- A group stands for the tokens that it pools. -/
theorem expand_cons (poolSize g : ℕ) (groups : List ℕ) : expand poolSize (g :: groups) =
    (List.range poolSize).map (g * poolSize + ·) ++ expand poolSize groups :=
  List.flatMap_cons

/-- Each group stands for as many tokens as it pools. -/
theorem length_expand (poolSize : ℕ) (groups : List ℕ) :
    (expand poolSize groups).length = groups.length * poolSize := by
  induction groups with
  | nil => simp [expand]
  | cons g groups ih =>
    rw [expand_cons, List.length_append, List.length_map, List.length_range, ih, List.length_cons,
      Nat.succ_mul, Nat.add_comm]

/-- Each group takes `poolSize` places. -/
theorem expand_getElem? {poolSize : ℕ} (hpos : 0 < poolSize) (groups : List ℕ) (c : ℕ) :
    (expand poolSize groups)[c]? = groups[c / poolSize]?.map (· * poolSize + c % poolSize) := by
  induction groups generalizing c with
  | nil => simp [expand]
  | cons g groups ih =>
    have hlen : ((List.range poolSize).map (g * poolSize + ·)).length = poolSize := by simp
    rw [expand_cons]
    rcases Nat.lt_or_ge c poolSize with hlt | hge
    · rw [List.getElem?_append_left (by omega), List.getElem?_map, List.getElem?_range hlt,
        Nat.div_eq_of_lt hlt, Nat.mod_eq_of_lt hlt]
      rfl
    · rw [List.getElem?_append_right (by omega), hlen, ih, Nat.div_eq_sub_div hpos hge,
        List.getElem?_cons_succ, Nat.mod_eq_sub_mod hge]

/-- The history is as long as its groups are. -/
theorem length_expand_groups (q : PooledTopk α) (r : ℕ) :
    (expand q.poolSize (q.groups r)).length = q.historyLen r := by
  rw [length_expand, length_groups, historyLen]

/-- The tokens of a row are the history and the tail. -/
theorem length_tokens (q : PooledTopk α) (r : ℕ) :
    (q.tokens r).length = q.historyLen r + (q.tail r).length := by
  rw [tokens, List.length_append, length_expand_groups]

/-- The tail is shorter than a group. -/
theorem length_tail_le (h : q.Admissible) (hr : r < q.logits.rows) :
    (q.tail r).length ≤ if q.seqLens.isSome then q.poolSize - 1 else 0 := by
  rw [tail]
  cases hseq : q.seqLens with
  | none => simp
  | some seqLens =>
    have hlt := Nat.mod_lt (seqLens r) h.poolSize_pos
    have hdiv := Nat.div_add_mod' (seqLens r) q.poolSize
    rw [← h.seqLens seqLens hseq r hr] at hdiv
    rw [Option.elim_some, List.length_range', Option.isSome_some, if_pos rfl]
    omega

/-- The tokens fit. -/
theorem length_tokens_le (h : q.Admissible) (hr : r < q.logits.rows) :
    (q.tokens r).length ≤ q.outCols := by
  have htail := length_tail_le h hr
  have hhistory : q.historyLen r ≤ q.topk :=
    calc q.historyLen r ≤ q.groupTopk * q.poolSize :=
          Nat.mul_le_mul_right _ (min_le_right _ _)
      _ = q.topk := Nat.div_mul_cancel h.poolSize_dvd
  rw [length_tokens, outCols]
  omega

/-- A live entry behind the history is in the tail. -/
theorem tailValid_iff (h : q.Admissible) (hr : r < q.logits.rows) :
    q.tailValid r c ↔ q.historyLen r ≤ c ∧ c < (q.tokens r).length := by
  rw [length_tokens, tailValid, tail]
  cases hseq : q.seqLens with
  | none => simp
  | some seqLens =>
    have hdiv := Nat.div_add_mod' (seqLens r) q.poolSize
    rw [← h.seqLens seqLens hseq r hr] at hdiv
    simp only [Option.mem_def, Option.some.injEq, exists_eq_left', Option.elim_some,
      List.length_range']
    omega

/-- A column is valid if there is a token for it. -/
theorem valid_iff (h : q.Admissible) (hr : r < q.logits.rows) :
    q.valid r c ↔ c < (q.tokens r).length := by
  have hlen := length_tokens q r
  rw [valid, tailValid_iff h hr]
  omega

/-! ### The entries -/

/-- At least one group is asked for. -/
theorem groupTopk_pos (h : q.Admissible) : 0 < q.groupTopk :=
  Nat.div_pos (Nat.le_of_dvd h.topk_pos h.poolSize_dvd) h.poolSize_pos

/-- The rank of a column is that of its group, or the last one. -/
theorem groupRank_eq (h : q.Admissible) (c : ℕ) :
    q.groupRank c = (min (c / q.poolSize) (q.groupTopk - 1) : ℕ) := by
  have hpos := groupTopk_pos h
  rw [groupRank]
  generalize c / q.poolSize = d
  omega

/-- The clamped rank always finds a group, and in the history the one that the entry is of. -/
theorem exists_group (h : q.Admissible) (hr : r < q.logits.rows) (c : ℕ) :
    ∃ i group, wrapIndex (q.selected r).length (q.groupRank c) = some i ∧
      (q.selected r)[i]? = some group ∧
      (c < q.historyLen r → (q.groups r)[c / q.poolSize]?.map (↑) = some group) := by
  have hpos := groupTopk_pos h
  have hlen := length_selected (h.window r hr)
  have hi : min (c / q.poolSize) (q.groupTopk - 1) < (q.selected r).length := by omega
  refine ⟨_, _, groupRank_eq h c ▸ wrapIndex_natCast hi, List.getElem?_eq_getElem hi, fun hc ↦ ?_⟩
  have hlt : c / q.poolSize < min (q.groupLengths r) q.groupTopk :=
    (Nat.div_lt_iff_lt_mul h.poolSize_pos).2 hc
  rw [← selected_getElem? (h.window r hr) (by rwa [length_groups]),
    ← List.getElem?_eq_getElem hi, min_eq_left (by omega)]

/-- A column of the history is a token of its group. -/
theorem tokens_getElem?_history (hpos : 0 < q.poolSize) (hc : c < q.historyLen r) :
    (q.tokens r)[c]? =
      (q.groups r)[c / q.poolSize]?.map (· * q.poolSize + c % q.poolSize) := by
  rw [tokens, List.getElem?_append_left (by rwa [length_expand_groups]), expand_getElem? hpos]

/-- A column behind the history is a token of the tail. -/
theorem tokens_getElem?_tail (hc : q.historyLen r ≤ c) (hlt : c < (q.tokens r).length) :
    (q.tokens r)[c]? = some (q.groupLengths r * q.poolSize + (c - q.historyLen r)) := by
  rw [length_tokens] at hlt
  rw [tokens, List.getElem?_append_right (by rwa [length_expand_groups]), length_expand_groups]
  rw [tail] at hlt ⊢
  cases hseq : q.seqLens with
  | none =>
    rw [hseq, Option.elim_none, List.length_nil] at hlt
    omega
  | some seqLens =>
    rw [hseq, Option.elim_some, List.length_range'] at hlt
    rw [Option.elim_some, List.getElem?_range' (by omega), Nat.one_mul]

/-- **The logical token of an entry** is the token of the row, and `0` behind the last. -/
theorem logical_eq (h : q.Admissible) (hr : r < q.logits.rows) (c : ℕ) :
    q.logical r c = some (((q.tokens r)[c]?.getD 0 : ℕ) : ℤ) := by
  obtain ⟨i, group, hi, hgroup, hhistory⟩ := exists_group h hr c
  have hvalid := valid_iff (c := c) h hr
  have htail := tailValid_iff (c := c) h hr
  simp only [logical, hi, hgroup, Option.bind_eq_bind, Option.bind_some, Option.pure_def,
    Option.some_inj]
  rcases Nat.lt_or_ge c (q.tokens r).length with hlt | hge
  · rw [if_pos (hvalid.2 hlt)]
    rcases Nat.lt_or_ge c (q.historyLen r) with hc | hc
    · -- an entry of the history: its group is one of the best
      obtain ⟨g, hg, rfl⟩ := Option.map_eq_some_iff.1 (hhistory hc)
      rw [if_neg fun hv ↦ absurd (htail.1 hv).1 (by omega),
        tokens_getElem?_history h.poolSize_pos hc, hg]
      simp
    · rw [if_pos (htail.2 ⟨hc, hlt⟩), tokens_getElem?_tail hc hlt, Option.getD_some]
      omega
  · rw [if_neg fun hv ↦ absurd (hvalid.1 hv) (by omega), List.getElem?_eq_none hge,
      Option.getD_none]
    rfl

/-- A token is found where the call says. -/
theorem mapped_eq (h : q.Admissible) (hr : r < q.logits.rows) {token : ℕ}
    (htoken : token = 0 ∨ token ∈ q.tokens r) : q.mapped r token = some (q.mapToken r token) := by
  rw [mapped, mapToken]
  cases htable : q.pageTable with
  | none => cases q.topkOffsets <;> rfl
  | some table =>
    obtain ⟨hrow, hcols, htokens⟩ := h.pageTable table htable r hr
    obtain ⟨row, hrow⟩ := Option.isSome_iff_exists.1 hrow
    have hlt : token < table.cols := by
      rcases htoken with rfl | hmem
      · exact hcols
      · exact htokens token hmem
    simp only [Tensor2.get?, hrow, wrapIndex_natCast hlt, Option.bind_eq_bind, Option.bind_some,
      Option.pure_def, Option.getD_some]

/-- **An entry** is its token, mapped, and `-1` behind the last. -/
theorem entry_eq (h : q.Admissible) (hr : r < q.logits.rows) (c : ℕ) : q.entry r c =
    some ((q.tokens r)[c]?.elim (-1) fun token ↦ toInt32 (q.mapToken r token)) := by
  have hmapped : ∀ token : ℕ, (token = 0 ∨ token ∈ q.tokens r) → q.logical r c = some ↑token →
      q.entry r c = some (toInt32 (if q.valid r c then q.mapToken r token else -1)) := by
    intro token htoken hlogical
    rw [entry, hlogical, Option.bind_eq_bind, Option.bind_some, mapped_eq h hr htoken]
    rfl
  have hlogical := logical_eq h hr c
  have hvalid := valid_iff (c := c) h hr
  cases hc : (q.tokens r)[c]? with
  | none =>
    rw [hc] at hlogical
    rw [hmapped 0 (Or.inl rfl) hlogical, if_neg fun hv ↦ ?_]
    · rfl
    · exact absurd (hvalid.1 hv) (Nat.not_lt.2 (List.getElem?_eq_none_iff.1 hc))
  | some token =>
    rw [hc] at hlogical
    rw [hmapped token (Or.inr (List.mem_of_getElem? hc)) hlogical,
      if_pos (hvalid.2 (List.getElem?_eq_some_iff.1 hc).1)]
    rfl

/-! ### The rows -/

/-- `mapM` of a function that always succeeds. -/
theorem mapM_eq_some_map {β γ : Type} {f : β → Option γ} {g : β → γ} {l : List β}
    (h : ∀ b ∈ l, f b = some (g b)) : l.mapM f = some (l.map g) := by
  induction l with
  | nil => rfl
  | cons b l ih =>
    rw [List.mapM_cons, h b List.mem_cons_self, ih fun b hb ↦ h b (List.mem_cons_of_mem _ hb)]
    rfl

/-- The expected row has a column for each one of the output. -/
theorem length_expectedRow (h : q.Admissible) (hr : r < q.logits.rows) :
    (q.expectedRow r).length = q.outCols := by
  have hle := length_tokens_le h hr
  rw [expectedRow, List.length_append, List.length_map, List.length_replicate]
  omega

/-- The expected row, column by column. -/
theorem expectedRow_eq_map (h : q.Admissible) (hr : r < q.logits.rows) :
    (List.range q.outCols).map (fun c ↦
      (q.tokens r)[c]?.elim (-1) fun token ↦ toInt32 (q.mapToken r token)) = q.expectedRow r := by
  have hlen := length_expectedRow h hr
  refine List.ext_getElem? fun c ↦ ?_
  rcases Nat.lt_or_ge c q.outCols with hc | hc
  · rw [List.getElem?_map, List.getElem?_range hc, Option.map_some, expectedRow]
    rcases Nat.lt_or_ge c (q.tokens r).length with hlt | hge
    · rw [List.getElem?_append_left (by rwa [List.length_map]), List.getElem?_map,
        List.getElem?_eq_getElem hlt]
      rfl
    · rw [List.getElem?_append_right (by rwa [List.length_map]), List.length_map,
        List.getElem?_eq_none hge, List.getElem?_replicate, if_pos (by omega), Option.elim_none]
  · rw [List.getElem?_eq_none (by rwa [List.length_map, List.length_range]),
      List.getElem?_eq_none (by omega)]

/-- **A call returns, in each row, the tokens of the best groups and the live tail**, each mapped,
and `-1` everywhere else. -/
theorem eq_expected (h : q.Admissible) :
    q.topkFromPooledHistoryLogitsHip = some q.expected := by
  have hrow : ∀ r ∈ List.range q.logits.rows,
      (List.range q.outCols).mapM (q.entry r) = some (q.expectedRow r) := by
    intro r hr
    have hr := List.mem_range.1 hr
    rw [mapM_eq_some_map fun c _ ↦ entry_eq h hr c, expectedRow_eq_map h hr]
  rw [topkFromPooledHistoryLogitsHip, mapM_eq_some_map hrow, Option.bind_eq_bind,
    Option.bind_some, expected]
  cases hout : q.outRows with
  | none => simp
  | some outRows => simp [h.outRows outRows hout]

/-- Where every mapped token is an `int32` the row holds the mapped tokens themselves. -/
theorem expectedRow_of_int32
    (h : ∀ token ∈ q.tokens r, -2 ^ 31 ≤ q.mapToken r token ∧ q.mapToken r token < 2 ^ 31) :
    q.expectedRow r = (q.tokens r).map (q.mapToken r) ++
      List.replicate (q.outCols - (q.tokens r).length) (-1) := by
  rw [expectedRow]
  congr 1
  exact List.map_congr_left fun token htoken ↦ toInt32_eq_self (h token htoken).1 (h token htoken).2

/-- Two rows of a call with a live tail, a page table and a row to pad: the first has more groups
than are selected, and two of the same score. -/
def small : PooledTopk ℕ where
  logits := ⟨2, 5, fun r c ↦ ([[0, 5, 9, 5, 7], [3, 1, 1, 1, 1]].getD r []).getD c 0⟩
  groupLengths r := [3, 1].getD r 0
  poolSize := 2
  topk := 4
  pageTable := some ⟨2, 8, fun r c ↦ 10 * (r + 1) + c⟩
  seqLens := some fun r ↦ [7, 3].getD r 0
  rowStarts := some fun r ↦ [1, 0].getD r 0
  outRows := some 3
  pageTableRowIndex := some fun r ↦ 1 - r

/-- The shapes of the small call agree. -/
theorem admissible_small : small.Admissible where
  poolSize_pos := by decide
  topk_pos := by decide
  poolSize_dvd := by decide
  window := by decide
  seqLens := by
    rintro seqLens ⟨⟩
    decide
  pageTable := by
    rintro table ⟨⟩
    decide
  outRows := by
    rintro outRows ⟨⟩
    decide

/-- Three rows: a full one, one that is padded and an empty one. -/
theorem eq_expected_small : small.topkFromPooledHistoryLogitsHip =
    some [[20, 21, 22, 23, 26], [10, 11, 12, -1, -1], [-1, -1, -1, -1, -1]] :=
  (eq_expected admissible_small).trans (congrArg some (by decide))

end PooledTopk

end Sglang
