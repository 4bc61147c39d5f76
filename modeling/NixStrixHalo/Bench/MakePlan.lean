import Mathlib.Data.List.Perm.Subperm
import Mathlib.Data.Prod.Lex
import NixStrixHalo.Library.LastMax
import NixStrixHalo.Library.OrderedDict
import NixStrixHalo.Bench.StreamClient

/-!
# Planning and resuming

`make_plan` of `vllm-transport-matrix.sh` writes the cases of a run: those of the product of its
axes that are not done, or a sample of them, in the order of the axes.

## Resuming

The sample is drawn after the done cases are left out, so it depends on them: a run that resumes
plans what is left of its plan exactly when no sample is drawn or nothing is done yet
(`resumes_iff`). Otherwise it plans too many (`length_lt_length_makePlan`): as many cases as before,
or all that are left of the product if these are fewer. Of the sampler nothing is needed but that it
draws as many distinct indices as it is asked for (`Sampler`).

The axes are sets (`PlanArgs.AreSets`), and the done cases are some of the first plan, as they are
when a run is continued.
-/

namespace Bench

/-- `random.Random(seed).sample(population, k)` on a population of size `n`, as the indices that it
picks. -/
structure Sampler where
  sample : ℤ → ℕ → ℕ → List ℕ
  length_sample : ∀ seed n k, k ≤ n → (sample seed n k).length = k
  nodup_sample : ∀ seed n k, k ≤ n → (sample seed n k).Nodup
  lt_of_mem_sample : ∀ seed n k, k ≤ n → ∀ i ∈ sample seed n k, i < n

/-- The arguments of `make_plan` that say what is planned. -/
structure PlanArgs where
  sampleCases : ℤ
  seed : ℤ
  models : List String
  transports : List String
  concurrencies : List ℤ
  maxTokens : ℤ

/-- The product of the axes. -/
def PlanArgs.cases (args : PlanArgs) : List Case :=
  args.transports.flatMap fun transport ↦ args.models.flatMap fun model ↦
    args.concurrencies.map fun concurrency ↦
      { transport, model, concurrency, maxTokens := args.maxTokens }

/-- The set `done`, from the rows of the CSV file. -/
def doneCases (csv : List Row) : List Case :=
  (csv.filter fun row ↦ row.status = .ok ∨ row.status = .skipped).map Row.case

/-- `rnd.sample(cases, sample_cases)`, where a sample is drawn. -/
def sampleOf (rnd : Sampler) (args : PlanArgs) (cases : List Case) : List Case :=
  if 0 < args.sampleCases ∧ args.sampleCases < cases.length then
    (rnd.sample args.seed cases.length args.sampleCases.toNat).filterMap (cases[·]?)
  else cases

/-- `{name: i for i, name in enumerate(names)}[name]`. -/
def orderOf (names : List String) (name : String) : ℕ :=
  (OrderedDict.get? (OrderedDict.ofPairs names.zipIdx) name).getD 0

/-- The sort key of a case. -/
def PlanArgs.key (args : PlanArgs) (c : Case) : ℕ ×ₗ ℕ ×ₗ ℤ :=
  toLex (orderOf args.transports c.transport, toLex (orderOf args.models c.model, c.concurrency))

/-- `make_plan`: the cases of the plan file. -/
def makePlan (rnd : Sampler) (args : PlanArgs) (resume : Bool) (csv : List Row) : List Case :=
  let done := if resume then doneCases csv else []
  let cases := if done ≠ [] then args.cases.filter (· ∉ done) else args.cases
  (sampleOf rnd args cases).insertionSort fun a b ↦ args.key a ≤ args.key b

/-- A sample of the whole product is drawn. -/
def PlanArgs.Samples (args : PlanArgs) : Prop :=
  0 < args.sampleCases ∧ args.sampleCases < args.cases.length

/-- Resuming plans what the CSV file does not have of the plan, in the same order. -/
def Resumes (rnd : Sampler) (args : PlanArgs) (csv : List Row) : Prop :=
  makePlan rnd args true csv = (makePlan rnd args true []).filter (· ∉ doneCases csv)

instance (rnd : Sampler) (args : PlanArgs) (csv : List Row) : Decidable (Resumes rnd args csv) :=
  inferInstanceAs (Decidable (_ = _))

/-- The models, the transports and the concurrencies are sets. -/
structure PlanArgs.AreSets (args : PlanArgs) : Prop where
  models : args.models.Nodup
  transports : args.transports.Nodup
  concurrencies : args.concurrencies.Nodup

variable {rnd : Sampler} {args : PlanArgs} {csv : List Row} {cases : List Case}

/-! ### The cases and their samples -/

theorem makePlan_nil (rnd : Sampler) (args : PlanArgs) : makePlan rnd args true [] =
    (sampleOf rnd args args.cases).insertionSort fun a b ↦ args.key a ≤ args.key b := rfl

/-- Leaving out nothing is leaving out what is done. -/
theorem makePlan_true (rnd : Sampler) (args : PlanArgs) (csv : List Row) :
    makePlan rnd args true csv =
      (sampleOf rnd args (args.cases.filter (· ∉ doneCases csv))).insertionSort
        fun a b ↦ args.key a ≤ args.key b := by
  rw [makePlan, if_pos rfl]
  split
  · rfl
  next hdone =>
    rw [not_not] at hdone
    simp [hdone]

theorem PlanArgs.AreSets.nodup_cases (h : args.AreSets) : args.cases.Nodup := by
  refine List.nodup_flatMap.2 ⟨fun transport _ ↦ List.nodup_flatMap.2 ⟨fun model _ ↦ ?_, ?_⟩, ?_⟩
  · exact h.concurrencies.map fun a b heq ↦ congrArg Case.concurrency heq
  · refine h.models.imp fun {m m'} hne ↦ ?_
    simp only [Function.onFun, List.disjoint_left, List.mem_map]
    rintro _ ⟨c, -, rfl⟩ ⟨c', -, heq⟩
    exact hne (congrArg Case.model heq).symm
  · refine h.transports.imp fun {t t'} hne ↦ ?_
    simp only [Function.onFun, List.disjoint_left, List.mem_flatMap, List.mem_map]
    rintro _ ⟨m, -, c, -, rfl⟩ ⟨m', -, c', -, heq⟩
    exact hne (congrArg Case.transport heq).symm

theorem sampleOf_of_not (h : ¬ (0 < args.sampleCases ∧ args.sampleCases < cases.length)) :
    sampleOf rnd args cases = cases :=
  if_neg h

/-- A sample has as many cases as are asked for. -/
theorem length_sampleOf (h : 0 < args.sampleCases ∧ args.sampleCases < cases.length) :
    (sampleOf rnd args cases).length = args.sampleCases.toNat := by
  have hle : args.sampleCases.toNat ≤ cases.length := by omega
  rw [sampleOf, if_pos h, List.length_filterMap_eq_countP, List.countP_eq_length.2 ?_,
    rnd.length_sample _ _ _ hle]
  intro i hi
  rw [List.getElem?_eq_getElem (rnd.lt_of_mem_sample _ _ _ hle i hi), Option.isSome_some]

/-- A sample has nothing but the cases. -/
theorem mem_of_mem_sampleOf {c : Case} (h : c ∈ sampleOf rnd args cases) : c ∈ cases := by
  rw [sampleOf] at h
  split at h
  · obtain ⟨i, -, hi⟩ := List.mem_filterMap.1 h
    exact List.mem_of_getElem? hi
  · exact h

/-- A sample has no case twice. -/
theorem nodup_sampleOf (h : cases.Nodup) : (sampleOf rnd args cases).Nodup := by
  rw [sampleOf]
  split
  next hsample =>
    refine (rnd.nodup_sample _ _ _ (by omega)).filterMap fun i j c hi hj ↦ ?_
    obtain ⟨hi, hci⟩ := List.getElem?_eq_some_iff.1 hi
    obtain ⟨hj, hcj⟩ := List.getElem?_eq_some_iff.1 hj
    exact (h.getElem_inj_iff).1 (hci.trans hcj.symm)
  · exact h

/-! ### When resuming continues the plan -/

/-- Without a sample, leaving out the done cases commutes with the sort. -/
theorem resumes_of_not_samples (h : ¬ args.Samples) : Resumes rnd args csv := by
  have hrest : ¬ (0 < args.sampleCases ∧
      args.sampleCases < (args.cases.filter (· ∉ doneCases csv)).length) := by
    rintro ⟨hpos, hlt⟩
    have hle := List.length_filter_le (fun c ↦ decide (c ∉ doneCases csv)) args.cases
    exact h ⟨hpos, by omega⟩
  rw [Resumes, makePlan_true, makePlan_nil, sampleOf_of_not hrest, sampleOf_of_not h,
    LastMax.filter_insertionSort]

/-- With a sample and something done, a resumed plan is longer than what is left of the plan: it has
as many cases as before or, where fewer are left, also those that were not in the sample. -/
theorem length_lt_length_makePlan (hsets : args.AreSets) (h : args.Samples)
    (hD : ∀ c ∈ doneCases csv, c ∈ makePlan rnd args true []) (hne : doneCases csv ≠ []) :
    ((makePlan rnd args true []).filter (· ∉ doneCases csv)).length <
      (makePlan rnd args true csv).length := by
  rw [makePlan_nil] at hD ⊢
  rw [makePlan_true, LastMax.filter_insertionSort, List.length_insertionSort,
    List.length_insertionSort]
  have hD' : ∀ c ∈ doneCases csv, c ∈ sampleOf rnd args args.cases := fun c hc ↦
    (List.mem_insertionSort _).1 (hD c hc)
  have hnodup := hsets.nodup_cases
  have hlength : (sampleOf rnd args args.cases).length = args.sampleCases.toNat :=
    length_sampleOf h
  by_cases hrest : 0 < args.sampleCases ∧
      args.sampleCases < (args.cases.filter (· ∉ doneCases csv)).length
  · rw [length_sampleOf hrest, ← hlength]
    obtain ⟨c, hc⟩ := List.exists_mem_of_ne_nil _ hne
    refine List.length_filter_lt_length_iff_exists.2 ⟨c, hD' c hc, by simpa using hc⟩
  · rw [sampleOf_of_not hrest]
    -- a case outside of the sample is not done, so it is left in the product
    obtain ⟨c, hc, hout⟩ : ∃ c ∈ args.cases, c ∉ sampleOf rnd args args.cases := by
      by_contra hall
      push Not at hall
      have hle := (hnodup.subperm hall).length_le
      obtain ⟨hpos, hlt⟩ := h
      omega
    have hsub : (c :: (sampleOf rnd args args.cases).filter (· ∉ doneCases csv)).Subperm
        (args.cases.filter (· ∉ doneCases csv)) := by
      refine List.Nodup.subperm (List.nodup_cons.2 ⟨fun hmem ↦ ?_, ?_⟩) fun d hd ↦ ?_
      · exact hout (List.mem_filter.1 hmem).1
      · exact (nodup_sampleOf hnodup).filter _
      · rcases List.mem_cons.1 hd with rfl | hd
        · exact List.mem_filter.2 ⟨hc, by simpa using fun hdone ↦ hout (hD' _ hdone)⟩
        · obtain ⟨hd, hdone⟩ := List.mem_filter.1 hd
          exact List.mem_filter.2 ⟨mem_of_mem_sampleOf hd, hdone⟩
    exact hsub.length_le

/-- **When resuming continues the plan**: exactly when the plan is the whole product, or nothing of
it is done. -/
theorem resumes_iff (rnd : Sampler) (args : PlanArgs) (hsets : args.AreSets) (csv : List Row)
    (hD : ∀ c ∈ doneCases csv, c ∈ makePlan rnd args true []) :
    Resumes rnd args csv ↔ ¬ args.Samples ∨ doneCases csv = [] := by
  constructor
  · intro hresumes
    by_contra hcond
    push Not at hcond
    have hlt := length_lt_length_makePlan hsets hcond.1 hD hcond.2
    rw [hresumes] at hlt
    exact lt_irrefl _ hlt
  · rintro (h | h)
    · exact resumes_of_not_samples h
    · rw [Resumes, makePlan_true, makePlan_nil, h]
      simp

/-- A sampler that picks the last indices, as `random.sample` does with the seed below for one of
two cases. -/
def lastIndices : Sampler where
  sample _ n k := (List.range n).reverse.take k
  length_sample _ n k h := by
    rw [List.length_take, List.length_reverse, List.length_range, min_eq_left h]
  nodup_sample _ n k _ := (List.nodup_reverse.2 List.nodup_range).sublist (List.take_sublist k _)
  lt_of_mem_sample _ n k _ i hi :=
    List.mem_range.1 (List.mem_reverse.1 (List.mem_of_mem_take hi))

/-- A run over two cases that samples some of them. -/
def twoCases (sampleCases : ℤ) : PlanArgs where
  sampleCases := sampleCases
  seed := 20260502
  models := ["Qwen/Qwen3-0.6B"]
  transports := ["solo"]
  concurrencies := [1, 4]
  maxTokens := 64

/-- The row of one of the cases. -/
def okRow (concurrency : ℤ) : Row where
  case := { transport := "solo", model := "Qwen/Qwen3-0.6B", concurrency, maxTokens := 64 }
  parallelism := "solo"
  requestsOk := 4
  requestsFailed := 0
  status := .ok
  skipReason := ""
  socketIfname := ""
  rdmaHca := ""

theorem resumes_iff_twoCases : Resumes lastIndices (twoCases 0) [okRow 4] ↔
    ¬ (twoCases 0).Samples ∨ doneCases [okRow 4] = [] :=
  resumes_iff lastIndices (twoCases 0) ⟨by decide, by decide, by decide⟩ [okRow 4] (by decide)

/-- A plan of one of two cases is completed, and resuming it plans the other case. -/
theorem not_resumes_completed :
    makePlan lastIndices (twoCases 1) true [] = [(okRow 4).case] ∧
      makePlan lastIndices (twoCases 1) true [okRow 4] = [(okRow 1).case] ∧
      ¬ Resumes lastIndices (twoCases 1) [okRow 4] := by
  decide

end Bench
