import Mathlib.Data.Char
import Mathlib.Data.List.Lex
import Mathlib.Data.Nat.Digits.Defs
import NixStrixHalo.Library.KeyRank
import NixStrixHalo.Library.PythonText

/-!
# The GPU that a benchmark runs on

The benchmark runners start with `hipArchGuard`, which walks over the nodes of the KFD topology,
counts the GPUs among them, and exports the count at the first GPU of the wanted architecture as
`HIP_VISIBLE_DEVICES`. The exported device has the wanted architecture if and only if some GPU of
this architecture has the same rank among the GPUs by number as the first one by name
(`hipArchGuard_iff`); up to ten nodes it does (`guardSound_of_length_le`).

## Names and numbers

The glob gives the nodes in the order of their names as texts, where `10` comes before `2`, while
HIP numbers the GPUs in the order of their numbers. Both lists are sorted by a key that no two nodes
share, so a position in either is a number of nodes with a smaller key, and the two can be compared
although the lists cannot.

## The script

The guard is a text that is put at the start of a script, and what ends it depends on the options of
that script. Under `set -euo pipefail` a `grep` that finds nothing ends the script. Every node says
its version, so this happens only where there is no node at all: the glob then gives itself, which
is no file. Without these options the loop passes over it, and nothing is exported.
-/

namespace Bench.HipArchGuard

/-- A line of a text. -/
abbrev Line := List Char

/-! ### The wanted version -/

/-- `lib.removePrefix "gfx"`. -/
def removeGfx (arch : Line) : Line := if "gfx".toList <+: arch then arch.drop 3 else arch

/-- `builtins.substring`: a negative start is an error, a negative length takes the rest. -/
def substring (start len : ℤ) (s : Line) : Option Line :=
  if start < 0 then none
  else if len < 0 then some (s.drop start.toNat)
  else some ((s.drop start.toNat).take len.toNat)

/-- `toString` of an integer. -/
def intText : ℤ → Line
  | .ofNat n => Nat.toDigits 10 n
  | .negSucc n => '-' :: Nat.toDigits 10 (n + 1)

/-- `gfxTargetVersionFor`, where `toInt` is that of nixpkgs. -/
def gfxTargetVersionFor (toInt : Line → Option ℤ) (runtimeArch : Line) : Option Line := do
  let digits := removeGfx runtimeArch
  let len : ℤ := digits.length
  let major ← toInt (← substring 0 (len - 2) digits)
  let minor ← toInt (← substring (len - 2) 1 digits)
  let step ← toInt (← substring (len - 1) 1 digits)
  some (intText (major * 10000 + minor * 100 + step))

/-! ### The topology -/

/-- What `grep` looks for at the start of a line. -/
def versionKey : Line := "gfx_target_version".toList

/-- A node of the topology: the lines of its `properties`, one of which has the version. -/
structure Node where
  version : ℕ
  before : List Line
  after : List Line
  not_key_before : ∀ line ∈ before, ¬ versionKey <+: line
  not_key_after : ∀ line ∈ after, ¬ versionKey <+: line

/-- The lines of `properties`. -/
def Node.properties (node : Node) : List Line :=
  node.before ++ (versionKey ++ ' ' :: Nat.toDigits 10 node.version) :: node.after

/-- The name of the directory of a node. -/
def nodeName (i : ℕ) : Line := Nat.toDigits 10 i

/-- The nodes in the order of the glob. -/
def globNodes (nodes : List Node) : List ℕ :=
  (List.range nodes.length).insertionSort fun i j ↦ nodeName i ≤ nodeName j

/-- The files that the loop reads. A glob without a match gives itself, and this is no file. -/
def propsFiles (nodes : List Node) : List (Option (List Line)) :=
  if nodes = [] then [none] else (globNodes nodes).map fun i ↦ nodes[i]?.map Node.properties

/-- The version of a node. -/
def versionOf (nodes : List Node) (i : ℕ) : ℕ := (nodes[i]?.map Node.version).getD 0

/-- The node has a GPU: nodes with a CPU only report version 0. -/
def IsGpu (nodes : List Node) (i : ℕ) : Prop := versionOf nodes i ≠ 0

instance (nodes : List Node) : DecidablePred (IsGpu nodes) :=
  fun i ↦ inferInstanceAs (Decidable (versionOf nodes i ≠ 0))

/-- The devices of HIP: the nodes with a GPU, by number. -/
def hipDevices (nodes : List Node) : List ℕ := (List.range nodes.length).filter (IsGpu nodes ·)

/-- The version of the node is the wanted one. -/
def Matches (want : Line) (nodes : List Node) (i : ℕ) : Prop :=
  Nat.toDigits 10 (versionOf nodes i) = want

instance (want : Line) (nodes : List Node) : DecidablePred (Matches want nodes) :=
  fun i ↦ inferInstanceAs (Decidable (Nat.toDigits 10 (versionOf nodes i) = want))

/-! ### The guard -/

/-- A blank of `awk`. -/
def isBlank (c : Char) : Bool := c = ' ' ∨ c = '\t'

/-- `awk '{print $2}'` on a line. -/
def secondField (line : Line) : Line :=
  let first := line.dropWhile isBlank
  ((first.dropWhile (!isBlank ·)).dropWhile isBlank).takeWhile (!isBlank ·)

/-- What `grep -s '^gfx_target_version'` finds, and its status. -/
def grepVersion : Option (List Line) → List Line × ℕ
  | none => ([], 2)
  | some lines =>
    let found := lines.filter (versionKey <+: ·)
    (found, if found = [] then 1 else 0)

/-- `$(…)`: the output without the line breaks at its end. -/
def substitute (output : Line) : Line := (output.reverse.dropWhile (· = '\n')).reverse

/-- `_ver`. -/
def ver (file : Option (List Line)) : Line :=
  substitute (PythonText.unlines ((grepVersion file).1.map secondField))

/-- The loop, from a value of `_gpu_idx` on: `_hip_idx` where it is not -1, or the status with which
`set -euo pipefail` ends the script. -/
def loop (strict : Bool) (want : Line) : List (Option (List Line)) → ℕ → Except ℕ (Option ℕ)
  | [], _ => .ok none
  | file :: files, gpuIdx =>
    if strict ∧ (grepVersion file).2 ≠ 0 then .error (grepVersion file).2
    else if ver file = [] ∨ ver file = ['0'] then loop strict want files gpuIdx
    else if ver file = want then .ok (some gpuIdx)
    else loop strict want files (gpuIdx + 1)

/-- What the guard prints and exports. -/
structure Guarded where
  stdout : List Line
  hipVisibleDevices : Option ℕ

/-- The snippet for a wanted version. -/
def guardFor (strict : Bool) (want : Line) (nodes : List Node) : Except ℕ Guarded := do
  match ← loop strict want (propsFiles nodes) 0 with
  | none => .ok { stdout := [], hipVisibleDevices := none }
  | some i =>
    .ok
      { stdout := ["hipArchGuard: restricting to HIP device ".toList ++ Nat.toDigits 10 i ++
          " (gfx_target_version=".toList ++ want ++ ")".toList]
        hipVisibleDevices := some i }

/-- `hipArchGuard`, run at the start of a script, which is `strict` under `set -euo pipefail`. -/
def hipArchGuard (toInt : Line → Option ℤ) (runtimeArch : Line) :
    Option (Bool → List Node → Except ℕ Guarded) := do
  let want ← gfxTargetVersionFor toInt runtimeArch
  some fun strict nodes ↦ guardFor strict want nodes

/-- The value of `HIP_VISIBLE_DEVICES` that is exported. -/
def exported : Except ℕ Guarded → Option ℕ
  | .ok g => g.hipVisibleDevices
  | .error _ => none

/-! ### The version that the loop reads -/

section

variable {want : Line} {nodes : List Node} {strict : Bool}

theorem not_isBlank_of_isDigit {c : Char} (h : c.isDigit) : isBlank c = false := by
  have hc : c ≠ ' ' ∧ c ≠ '\t' := by
    constructor <;> rintro rfl <;> exact absurd h (by decide)
  simp [isBlank, hc]

/-- The second field of a line of two words. -/
theorem secondField_append {first second : Line} (hne : first ≠ []) (hne' : second ≠ [])
    (hfirst : ∀ c ∈ first, isBlank c = false) (hsecond : ∀ c ∈ second, isBlank c = false) :
    secondField (first ++ ' ' :: second) = second := by
  obtain ⟨a, first, rfl⟩ := List.exists_cons_of_ne_nil hne
  obtain ⟨b, second, rfl⟩ := List.exists_cons_of_ne_nil hne'
  have ha : isBlank a = false := hfirst a List.mem_cons_self
  have hb : isBlank b = false := hsecond b List.mem_cons_self
  have hdrop : (a :: first ++ ' ' :: b :: second).dropWhile (!isBlank ·) = ' ' :: b :: second := by
    rw [List.dropWhile_append_of_pos fun c hc ↦ by simp [hfirst c hc]]
    exact List.dropWhile_cons_of_neg (by decide)
  have hblank : (a :: first ++ ' ' :: b :: second).dropWhile isBlank =
      a :: first ++ ' ' :: b :: second := List.dropWhile_cons_of_neg (by simp [ha])
  rw [secondField, hblank, hdrop, List.dropWhile_cons_of_pos (by decide),
    List.dropWhile_cons_of_neg (by simp [hb])]
  exact List.takeWhile_eq_self_iff.2 fun c hc ↦ by simp [hsecond c hc]

theorem substitute_append_newline {line : Line} (hne : line ≠ []) (h : '\n' ∉ line) :
    substitute (line ++ ['\n']) = line := by
  obtain ⟨line, c, rfl⟩ := List.eq_nil_or_concat' line |>.resolve_left hne
  have hc : c ≠ '\n' := fun hc ↦ h (by simp [hc])
  simp [substitute, hc]

/-- The line with the version is the only one that is found. -/
theorem grepVersion_properties (node : Node) : grepVersion (some node.properties) =
    ([versionKey ++ ' ' :: Nat.toDigits 10 node.version], 0) := by
  have hfilter : node.properties.filter (versionKey <+: ·) =
      [versionKey ++ ' ' :: Nat.toDigits 10 node.version] := by
    rw [Node.properties, List.filter_append, List.filter_cons_of_pos (by simp),
      List.filter_eq_nil_iff.2 fun line hline ↦ by simpa using node.not_key_before line hline,
      List.filter_eq_nil_iff.2 fun line hline ↦ by simpa using node.not_key_after line hline]
    rfl
  rw [grepVersion, hfilter]
  rfl

/-- The loop reads the digits of the version. -/
theorem ver_properties (node : Node) :
    ver (some node.properties) = Nat.toDigits 10 node.version := by
  have hfield : secondField (versionKey ++ ' ' :: Nat.toDigits 10 node.version) =
      Nat.toDigits 10 node.version :=
    secondField_append (by decide) Nat.toDigits_ne_nil (by decide)
      fun c hc ↦ not_isBlank_of_isDigit (Nat.isDigit_of_mem_toDigits (by decide) le_rfl hc)
  rw [ver, grepVersion_properties, List.map_singleton, hfield, PythonText.unlines,
    List.flatMap_singleton]
  refine substitute_append_newline Nat.toDigits_ne_nil fun hmem ↦ ?_
  exact absurd (Nat.isDigit_of_mem_toDigits (by decide) le_rfl hmem) (by decide)

theorem toDigits_eq_zero_iff {n : ℕ} : Nat.toDigits 10 n = ['0'] ↔ n = 0 := by
  constructor
  · intro h
    have hval := congrArg (Nat.ofDigitChars 10 · 0) h
    rwa [Nat.ofDigitChars_ten_toDigits] at hval
  · rintro rfl
    exact Nat.toDigits_zero 10

/-- **The loop** finds the first match among the GPUs, in the order of its files. -/
theorem loop_eq (l : List ℕ) (hl : ∀ i ∈ l, i < nodes.length) (k : ℕ) :
    loop strict want (l.map fun i ↦ nodes[i]?.map Node.properties) k =
      .ok (((l.filter (IsGpu nodes ·)).findIdx? (Matches want nodes ·)).map (k + ·)) := by
  induction l generalizing k with
  | nil => rfl
  | cons i l ih =>
    have hlt : i < nodes.length := hl i List.mem_cons_self
    have hversion : versionOf nodes i = nodes[i].version := by
      rw [versionOf, List.getElem?_eq_getElem hlt]
      rfl
    have hmatches : Nat.toDigits 10 nodes[i].version = want ↔ Matches want nodes i := by
      rw [Matches, hversion]
    -- what the script skips, an empty version or `0`, is a node that is no GPU
    have hskip : (Nat.toDigits 10 nodes[i].version = [] ∨
        Nat.toDigits 10 nodes[i].version = ['0']) ↔ ¬ IsGpu nodes i := by
      rw [or_iff_right Nat.toDigits_ne_nil, toDigits_eq_zero_iff, ← hversion, IsGpu, not_not]
    have hl' : ∀ j ∈ l, j < nodes.length := fun j hj ↦ hl j (List.mem_cons_of_mem i hj)
    rw [List.map_cons, List.getElem?_eq_getElem hlt, Option.map_some, loop, grepVersion_properties,
      ver_properties, if_neg (by simp)]
    simp only [hskip, hmatches]
    by_cases hgpu : IsGpu nodes i
    · rw [if_neg (not_not.2 hgpu), List.filter_cons_of_pos (by simpa using hgpu),
        List.findIdx?_cons]
      by_cases hmatch : Matches want nodes i
      · rw [if_pos hmatch, if_pos (decide_eq_true hmatch)]
        rfl
      · -- a GPU of another architecture counts
        rw [if_neg hmatch, if_neg (by simpa using hmatch), ih hl', Option.map_map]
        congr 2
        exact funext fun d ↦ (Nat.add_right_comm k 1 d).trans (Nat.add_assoc k d 1)
    · rw [if_pos hgpu, List.filter_cons_of_neg (by simpa using hgpu), ih hl']

/-! ### The exported device -/

theorem mem_globNodes {i : ℕ} : i ∈ globNodes nodes ↔ i < nodes.length := by
  rw [globNodes, List.mem_insertionSort, List.mem_range]

/-- What is exported, in the order of the glob. -/
theorem exported_guardFor : exported (guardFor strict want nodes) =
    ((globNodes nodes).filter (IsGpu nodes ·)).findIdx? (Matches want nodes ·) := by
  rcases eq_or_ne nodes [] with rfl | hne
  · -- the pattern itself is no file: the loop skips it, or the script ends
    cases strict <;> rfl
  · rw [guardFor, propsFiles, if_neg hne, loop_eq _ fun i hi ↦ mem_globNodes.1 hi]
    rcases ((globNodes nodes).filter (IsGpu nodes ·)).findIdx? (Matches want nodes ·) with _ | d
    · rfl
    · exact congrArg some (Nat.zero_add d)

/-- Nodes are told apart by the names of their directories. -/
theorem nodeName_injective : Function.Injective nodeName := by
  intro i j h
  have hval := congrArg (Nat.ofDigitChars 10 · 0) h
  simpa only [nodeName, Nat.ofDigitChars_ten_toDigits] using hval

/-- The GPUs are in the order of their names. -/
theorem pairwise_globNodes : ((globNodes nodes).filter (IsGpu nodes ·)).Pairwise fun i j ↦
    nodeName i < nodeName j :=
  (KeyRank.pairwise_insertionSort_lt List.nodup_range nodeName_injective).filter _

theorem pairwise_hipDevices : (hipDevices nodes).Pairwise fun i j ↦ i < j :=
  List.pairwise_lt_range.filter _

/-- The glob gives the devices of HIP, in another order. -/
theorem perm_hipDevices : ((globNodes nodes).filter (IsGpu nodes ·)).Perm (hipDevices nodes) :=
  (List.perm_insertionSort _ _).filter _

theorem mem_hipDevices {i : ℕ} : i ∈ hipDevices nodes ↔ i < nodes.length ∧ IsGpu nodes i := by
  rw [hipDevices, List.mem_filter, List.mem_range, decide_eq_true_iff]

/-- The device that is exported is the number of GPUs whose name is before all matching names. -/
theorem exported_eq_some_iff {d : ℕ} : exported (guardFor strict want nodes) = some d ↔
    (∃ x ∈ hipDevices nodes, Matches want nodes x) ∧
      (hipDevices nodes).countP (fun j ↦ ∀ x ∈ hipDevices nodes, Matches want nodes x →
        nodeName j < nodeName x) = d := by
  rw [exported_guardFor, KeyRank.findIdx?_eq_some_iff pairwise_globNodes, perm_hipDevices.countP_eq]
  simp only [perm_hipDevices.mem_iff]

/-! ### The device matches -/

/-- **What the guard promises**: the device that it exports is a node with the wanted version, and
it exports none exactly where no node has it. -/
structure GuardSound (want : Line) (nodes : List Node) (device : Option ℕ) : Prop where
  device_matches : ∀ d, device = some d →
    ∃ i, (hipDevices nodes)[d]? = some i ∧ Matches want nodes i
  unset_iff : device = none ↔ ∀ i < nodes.length, ¬ Matches want nodes i

/-- Some matching GPU has as many GPUs before it by number as the first matching one has by name. -/
def RankAgrees (want : Line) (nodes : List Node) : Prop :=
  ∃ y ∈ hipDevices nodes, Matches want nodes y ∧
    (hipDevices nodes).countP (· < y) =
      (hipDevices nodes).countP fun j ↦ ∀ x ∈ hipDevices nodes, Matches want nodes x →
        nodeName j < nodeName x

/-- **The guard is sound** exactly when there is no match to find or the ranks agree on it. -/
theorem guardSound_iff : GuardSound want nodes (exported (guardFor strict want nodes)) ↔
    (∀ i < nodes.length, ¬ Matches want nodes i) ∨ RankAgrees want nodes := by
  constructor
  · rintro ⟨hdevice, hunset⟩
    rcases hd : exported (guardFor strict want nodes) with _ | d
    · exact Or.inl (hunset.1 hd)
    · obtain ⟨y, hy, hmatch⟩ := hdevice d hd
      obtain ⟨hmem, hrank⟩ := (KeyRank.getElem?_eq_some_iff pairwise_hipDevices).1 hy
      exact Or.inr ⟨y, hmem, hmatch, hrank.trans (exported_eq_some_iff.1 hd).2.symm⟩
  · rintro (hnone | ⟨y, hmem, hmatch, hrank⟩)
    · have hd : exported (guardFor strict want nodes) = none := by
        refine Option.eq_none_iff_forall_ne_some.2 fun d hd ↦ ?_
        obtain ⟨⟨x, hx, hmatch⟩, -⟩ := exported_eq_some_iff.1 hd
        exact hnone x (mem_hipDevices.1 hx).1 hmatch
      refine ⟨fun d hd' ↦ ?_, iff_of_true hd hnone⟩
      rw [hd] at hd'
      cases hd'
    · have hd : exported (guardFor strict want nodes) = some _ :=
        exported_eq_some_iff.2 ⟨⟨y, hmem, hmatch⟩, rfl⟩
      refine ⟨fun d hd' ↦ ?_, iff_of_false ?_ ?_⟩
      · obtain rfl := Option.some.inj (hd.symm.trans hd')
        exact ⟨y, (KeyRank.getElem?_eq_some_iff pairwise_hipDevices).2 ⟨hmem, hrank⟩, hmatch⟩
      · rw [hd]
        exact Option.some_ne_none _
      · intro hnone
        exact hnone y (mem_hipDevices.1 hmem).1 hmatch

/-- Up to ten nodes the names are in the order of the numbers. -/
theorem rankAgrees_of_length_le (hlen : nodes.length ≤ 10)
    (hgpu : ∃ y, y ∈ hipDevices nodes ∧ Matches want nodes y) : RankAgrees want nodes := by
  have hname : ∀ i < 10, ∀ j < 10, (nodeName i < nodeName j ↔ i < j) := by decide
  have hten : ∀ i ∈ hipDevices nodes, i < 10 := fun i hi ↦ (mem_hipDevices.1 hi).1.trans_le hlen
  obtain ⟨hy, hmatch⟩ := Nat.find_spec hgpu
  refine ⟨Nat.find hgpu, hy, hmatch, List.countP_congr fun j hj ↦ ?_⟩
  rw [decide_eq_true_iff, decide_eq_true_iff]
  constructor
  · intro hlt x hx hx'
    exact (hname j (hten j hj) x (hten x hx)).2 (hlt.trans_le (Nat.find_min' hgpu ⟨hx, hx'⟩))
  · intro hall
    exact (hname j (hten j hj) _ (hten _ hy)).1 (hall _ hy hmatch)

/-- **Small machines hide the difference**: up to ten nodes the guard is sound for every version of
a GPU. -/
theorem guardSound_of_length_le (hlen : nodes.length ≤ 10) (hwant : want ≠ ['0']) :
    GuardSound want nodes (exported (guardFor strict want nodes)) := by
  rw [guardSound_iff, or_iff_not_imp_left]
  intro hsome
  push Not at hsome
  obtain ⟨y, hy, hmatch⟩ := hsome
  have hgpu : IsGpu nodes y := fun hzero ↦ hwant (by rw [← hmatch, hzero, Nat.toDigits_zero])
  exact rankAgrees_of_length_le hlen ⟨y, mem_hipDevices.2 ⟨hy, hgpu⟩, hmatch⟩

/-- Without nodes the pattern itself is read, which ends a script that is strict. -/
theorem guardFor_nil (want : Line) : guardFor true want [] = .error 2 := rfl

end

theorem hipArchGuard_of_want {toInt : Line → Option ℤ} {runtimeArch want : Line}
    (hwant : gfxTargetVersionFor toInt runtimeArch = some want) :
    hipArchGuard toInt runtimeArch = some fun strict nodes ↦ guardFor strict want nodes := by
  rw [hipArchGuard, hwant]
  rfl

/-- **The guard picks the right device** for an architecture if and only if no node has its version,
or some GPU that has it is the one with the rank of the first one by name. -/
theorem hipArchGuard_iff (toInt : Line → Option ℤ) (runtimeArch : Line) (strict : Bool)
    (nodes : List Node) (want : Line) (guard : Bool → List Node → Except ℕ Guarded)
    (hwant : gfxTargetVersionFor toInt runtimeArch = some want)
    (hguard : hipArchGuard toInt runtimeArch = some guard) :
    GuardSound want nodes (exported (guard strict nodes)) ↔
      (∀ i < nodes.length, ¬ Matches want nodes i) ∨ RankAgrees want nodes := by
  obtain rfl := Option.some.inj ((hipArchGuard_of_want hwant).symm.trans hguard)
  exact guardSound_iff

/-- `lib.toInt` on digits. -/
def digitsToInt (s : Line) : Option ℤ :=
  if s ≠ [] ∧ (∀ c ∈ s, c.isDigit) ∧ (s.head? = some '0' → s.length = 1) then
    some (Nat.ofDigitChars 10 s 0 : ℕ)
  else none

/-- A node with a version and no other properties. -/
def plainNode (version : ℕ) : Node where
  version := version
  before := []
  after := []
  not_key_before := by simp
  not_key_after := by simp

/-- A machine with a discrete GPU next to the one that is wanted. -/
theorem hipArchGuard_iff_hybrid :
    GuardSound "110501".toList [plainNode 0, plainNode 110000, plainNode 110501]
      (exported (guardFor true "110501".toList
        [plainNode 0, plainNode 110000, plainNode 110501])) :=
  (hipArchGuard_iff digitsToInt "gfx1151".toList true
    [plainNode 0, plainNode 110000, plainNode 110501] "110501".toList
    (fun strict nodes ↦ guardFor strict "110501".toList nodes) (by decide)
    (hipArchGuard_of_want (by decide))).2 (.inr ⟨2, by decide, by decide, by decide⟩)

/-- Ten GPUs, of which the last one is wanted. -/
def tenGpus : List Node :=
  plainNode 0 :: List.replicate 9 (plainNode 110000) ++ [plainNode 110501]

/-- With eleven nodes, node 10 is the second one by name: device 1 is exported, which is node 2. -/
theorem not_hipArchGuard : ∃ want guard,
    gfxTargetVersionFor digitsToInt "gfx1151".toList = some want ∧
    hipArchGuard digitsToInt "gfx1151".toList = some guard ∧
    ¬ GuardSound want tenGpus (exported (guard true tenGpus)) := by
  have hwant : gfxTargetVersionFor digitsToInt "gfx1151".toList = some "110501".toList := by decide
  refine ⟨_, _, hwant, hipArchGuard_of_want hwant, fun h ↦ ?_⟩
  have hdevice : exported (guardFor true "110501".toList tenGpus) = some 1 := by decide
  obtain ⟨i, hi, hmatch⟩ := h.device_matches 1 hdevice
  obtain rfl : 2 = i := Option.some.inj hi
  exact absurd hmatch (by decide)

end Bench.HipArchGuard
