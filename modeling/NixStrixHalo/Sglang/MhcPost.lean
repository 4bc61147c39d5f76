import Mathlib.Algebra.BigOperators.Fin
import Mathlib.Data.Fin.VecNotation
import Mathlib.Tactic.FinCases
import Mathlib.Tactic.NormNum
import Mathlib.Tactic.Ring
import NixStrixHalo.Library.Blocks
import NixStrixHalo.Library.Tile
import NixStrixHalo.Sglang.Int32

/-!
# The fused mHC post mixing

`_mhc_post_dispatch` hands a call with four residual streams to `_mhc_post_hip`, whose kernel mixes
them without the `[tokens, 4, 4, hidden]` temporary. Programs take a block of columns of one stream
of one token; the inputs are read through their strides, so that a slice or a transposed tensor is
accepted where its hidden columns are adjacent.

## What is proved

The output is the mixing that the call asks for, every element of it is written once, and the kernel
reads elements of the inputs only (`mhcPost_refines`), whatever the strides, the order of the
programs and the content of fresh memory.

## What is exact and what is not

The arithmetic of FP32 is exact, and the conversions from and to the element types are any
functions. The offsets are those of the kernel: program ids, columns and the products of a token or
a lane with a stride are 32-bit integers, which are extended when they are added to a pointer. The
guard of `_mhc_post_dispatch` does not bound the sizes, so the theorem asks that the last offsets
fit (`OffsetsFit`); a slice with long rows or a batch of many tokens may be too large for them.
-/

namespace Sglang

/-- The element types that `_mhc_post_dispatch` tells apart. -/
inductive Dtype where
  | bfloat16
  | float32
  | other
deriving DecidableEq

/-- A tensor of `n` dimensions; memory is seen from its data pointer. -/
structure Tensor (n : ℕ) (α : Type*) where
  memory : ℤ → α
  shape : Fin n → ℕ
  stride : Fin n → ℕ
  dtype : Dtype
  isCuda : Bool

namespace Tensor

variable {n : ℕ} {α : Type*} (T : Tensor n α) (i : Fin n → ℕ)

/-- Where an element is, from the data pointer. -/
def offset : ℤ := ∑ k, (i k : ℤ) * T.stride k

def element : α := T.memory (T.offset i)

/-- The offsets of the elements there are. -/
def offsets : Set ℤ := {x | ∃ i, (∀ k, i k < T.shape k) ∧ T.offset i = x}

end Tensor

/-- The arguments of `_mhc_post_dispatch`, whether `torch` was built for HIP, and how elements are
converted. -/
structure MhcPost (α R : Type*) where
  x : Tensor 2 α
  residual : Tensor 3 α
  postLayerMix : Tensor 3 α
  combResMix : Tensor 3 α
  hip : Bool
  toFloat32 : Dtype → α → R
  ofFloat32 : Dtype → R → α

namespace MhcPost

section

variable {α R : Type*} (a : MhcPost α R)

/-- `x.shape[0]`. -/
def tokens : ℕ := a.x.shape 0

/-- `H`. -/
def H : ℕ := a.x.shape 1

/-- The calls that `_mhc_post_dispatch` hands to `_mhc_post_hip`. -/
def Fused : Prop :=
  a.hip ∧ a.x.isCuda ∧
    a.residual.shape = ![a.tokens, 4, a.H] ∧
    a.postLayerMix.shape = ![a.tokens, 4, 1] ∧
    a.combResMix.shape = ![a.tokens, 4, 4] ∧
    (a.x.stride 1 = a.residual.stride 2 ∧ a.residual.stride 2 = 1) ∧
    a.x.dtype = a.residual.dtype ∧
    (a.x.dtype = .bfloat16 ∨ a.x.dtype = .float32) ∧
    (a.postLayerMix.dtype = a.combResMix.dtype ∧ a.combResMix.dtype = .float32)

instance : Decidable a.Fused := by unfold Fused; infer_instance

/-! ### The kernel -/

/-- `BLOCK`. -/
def BLOCK : ℕ := 512

/-- A program of `_mhc_post_hip_kernel`. -/
structure Program where
  pid0 : ℕ
  pid1 : ℕ

namespace Program

variable (p : Program)

/-- `token`. The division of 32-bit integers truncates. -/
def token : ℤ := (toInt32 p.pid1).tdiv 4

/-- `lane`. -/
def lane : ℤ := (toInt32 p.pid1).tmod 4

/-- `cols`. -/
def cols (i : Fin BLOCK) : ℤ := toInt32 (toInt32 (toInt32 p.pid0 * BLOCK) + i)

end Program

/-- `triton.cdiv(x.shape[1], 512)`. -/
def blocks : ℕ := (a.H + 512 - 1) / 512

/-- The grid `(triton.cdiv(x.shape[1], 512), x.shape[0] * 4)`. -/
def grid : List Program :=
  (List.range (a.tokens * 4)).flatMap fun pid1 ↦ (List.range a.blocks).map fun pid0 ↦ ⟨pid0, pid1⟩

/-- The numbers that the kernel is compiled for and that are multiplied with a token or a lane are
32-bit integers: others raise a `ValueError`. -/
def Compiles : Prop :=
  InInt32 a.H ∧ InInt32 (a.x.stride 0) ∧ InInt32 (a.residual.stride 0) ∧
    InInt32 (a.postLayerMix.stride 0) ∧ InInt32 (a.postLayerMix.stride 1) ∧
    InInt32 (a.combResMix.stride 0) ∧ InInt32 (a.combResMix.stride 2)

instance : Decidable a.Compiles := by unfold Compiles; infer_instance

variable [Zero α] [Add R] [Mul R] (p : Program)

/-- The load of `x`. -/
def loadX : Tile.Load (Fin BLOCK) α where
  memory := a.x.memory
  address i := toInt32 (p.token * a.x.stride 0) + p.cols i
  mask i := p.cols i < a.H
  other := 0

instance : DecidablePred (a.loadX p).mask := fun i ↦ inferInstanceAs (Decidable (p.cols i < a.H))

/-- The loads of `r0` to `r3`. -/
def loadR (s : Fin 4) : Tile.Load (Fin BLOCK) α where
  memory := a.residual.memory
  address i := toInt32 (p.token * a.residual.stride 0) + s * a.residual.stride 1 + p.cols i
  mask i := p.cols i < a.H
  other := 0

instance (s : Fin 4) : DecidablePred (a.loadR p s).mask :=
  fun i ↦ inferInstanceAs (Decidable (p.cols i < a.H))

/-- Where `post` is loaded from. -/
def postAddress : ℤ :=
  toInt32 (p.token * a.postLayerMix.stride 0) + toInt32 (p.lane * a.postLayerMix.stride 1)

/-- Where `c0` to `c3` are loaded from. -/
def combAddress (s : Fin 4) : ℤ :=
  toInt32 (p.token * a.combResMix.stride 0) + s * a.combResMix.stride 1 +
    toInt32 (p.lane * a.combResMix.stride 2)

/-- `x`. -/
def x32 (i : Fin BLOCK) : R := a.toFloat32 a.x.dtype ((a.loadX p).value i)

/-- `post`. -/
def post : R := a.toFloat32 a.postLayerMix.dtype (a.postLayerMix.memory (a.postAddress p))

/-- `r0` to `r3`. -/
def r (s : Fin 4) (i : Fin BLOCK) : R := a.toFloat32 a.residual.dtype ((a.loadR p s).value i)

/-- `c0` to `c3`. -/
def c (s : Fin 4) : R :=
  a.toFloat32 a.combResMix.dtype (a.combResMix.memory (a.combAddress p s))

/-- The streams are numbered from `0`. -/
local instance streams_ne_zero : NeZero 4 := ⟨four_ne_zero⟩

/-- `out`. -/
def out (i : Fin BLOCK) : R :=
  a.post p * a.x32 p i +
    (((a.r p 0 i * a.c p 0 + a.r p 1 i * a.c p 1) + a.r p 2 i * a.c p 2) + a.r p 3 i * a.c p 3)

/-- What a program stores to `O`. -/
def stores : List (ℤ × α) :=
  ((List.finRange BLOCK).filter fun i ↦ p.cols i < a.H).map fun i ↦
    (toInt32 (toInt32 (p.token * 4) * a.H) + toInt32 (p.lane * a.H) + p.cols i,
      a.ofFloat32 a.x.dtype (a.out p i))

/-- The tensor `out` over some memory; `torch.empty` is contiguous. -/
def outTensor (memory : ℤ → α) : Tensor 3 α where
  memory
  shape := a.residual.shape
  stride := ![a.residual.shape 1 * a.residual.shape 2, a.residual.shape 2, 1]
  dtype := a.x.dtype
  isCuda := a.x.isCuda

/-- `_mhc_post_hip`; nothing is launched for a tensor without elements, and `none` is the
`ValueError` of a number that the kernel cannot be compiled for. -/
def mhcPostHip (d : Tile.Schedule Program α) : Option (Tensor 3 α) :=
  if a.tokens * a.H ≠ 0 then
    if a.Compiles then some (a.outTensor (d.launch a.grid a.stores)) else none
  else some (a.outTensor d.fresh)

/-- `_mhc_post_dispatch`, with `_mhc_post_torch` and `mhc_post` from outside. -/
def mhcPostDispatch (tilelang : Bool) (torch mhcPost : MhcPost α R → Option (Tensor 3 α))
    (d : Tile.Schedule Program α) : Option (Tensor 3 α) :=
  if !tilelang then
    if a.Fused then a.mhcPostHip d else torch a
  else mhcPost a

/-- The mixing of the streams of a token: `post_layer_mix * x` and the residual streams weighted by
column `j` of `comb_res_mix`. -/
def mix {R : Type*} [CommSemiring R] (a : MhcPost α R) (t j c : ℕ) : R :=
  a.toFloat32 a.postLayerMix.dtype (a.postLayerMix.element ![t, j, 0]) *
      a.toFloat32 a.x.dtype (a.x.element ![t, c]) +
    ∑ i : Fin 4, a.toFloat32 a.combResMix.dtype (a.combResMix.element ![t, i, j]) *
      a.toFloat32 a.residual.dtype (a.residual.element ![t, i, c])

end

/-! ### Offsets that fit -/

section

variable {α R : Type*}

/-- The offsets of the last token and those of the last lane are 32-bit integers. -/
structure OffsetsFit (a : MhcPost α R) : Prop where
  x : a.tokens * a.x.stride 0 < 2 ^ 31 + a.x.stride 0
  residual : a.tokens * a.residual.stride 0 < 2 ^ 31 + a.residual.stride 0
  postToken : a.tokens * a.postLayerMix.stride 0 < 2 ^ 31 + a.postLayerMix.stride 0
  postLane : 3 * a.postLayerMix.stride 1 < 2 ^ 31
  combToken : a.tokens * a.combResMix.stride 0 < 2 ^ 31 + a.combResMix.stride 0
  combLane : 3 * a.combResMix.stride 2 < 2 ^ 31
  outToken : a.tokens * (4 * a.H) < 2 ^ 31 + 4 * a.H
  outLane : 3 * a.H < 2 ^ 31

namespace Program

variable (p : Program)

/-- The token of a program. -/
def tokenIndex : ℕ := p.pid1 / 4

/-- The stream of a program. -/
def laneIndex : ℕ := p.pid1 % 4

/-- A column of a program. -/
def colIndex (i : Fin BLOCK) : ℕ := p.pid0 * BLOCK + i

theorem laneIndex_lt : p.laneIndex < 4 := Nat.mod_lt _ (by decide)

end Program

variable {a : MhcPost α R} {p : Program}

/-- The programs of the grid. -/
theorem mem_grid : p ∈ a.grid ↔ p.pid0 < a.blocks ∧ p.pid1 < a.tokens * 4 := by
  constructor
  · intro h
    obtain ⟨pid1, h1, h⟩ := List.mem_flatMap.1 h
    obtain ⟨pid0, h0, rfl⟩ := List.mem_map.1 h
    exact ⟨List.mem_range.1 h0, List.mem_range.1 h1⟩
  · rintro ⟨h0, h1⟩
    exact List.mem_flatMap.2 ⟨p.pid1, List.mem_range.2 h1,
      List.mem_map.2 ⟨p.pid0, List.mem_range.2 h0, rfl⟩⟩

/-- The blocks cover the columns. -/
theorem le_blocks_mul : a.H ≤ a.blocks * BLOCK := by
  show a.H ≤ (a.H + 512 - 1) / 512 * 512
  omega

/-- The blocks end less than a block behind the last column. -/
theorem blocks_mul_lt : a.blocks * BLOCK < a.H + BLOCK := by
  show (a.H + 512 - 1) / 512 * 512 < a.H + 512
  omega

/-- Only a tensor with columns has programs. -/
theorem pos_H_of_mem (hp : p ∈ a.grid) : 0 < a.H := by
  have hblock : p.pid0 < (a.H + 512 - 1) / 512 := (mem_grid.1 hp).1
  omega

/-- A program of the grid works on a token of the launch. -/
theorem tokenIndex_lt (hp : p ∈ a.grid) : p.tokenIndex < a.tokens :=
  Nat.div_lt_of_lt_mul (by rw [mul_comm]; exact (mem_grid.1 hp).2)

/-- The offset of a row fits where that of the last row does. -/
theorem toInt32_tokenIndex_mul (hp : p ∈ a.grid) {n : ℕ} (hn : a.tokens * n < 2 ^ 31 + n) :
    toInt32 (p.tokenIndex * n) = p.tokenIndex * n := by
  have hle : (p.tokenIndex + 1) * n ≤ a.tokens * n :=
    Nat.mul_le_mul_right _ (tokenIndex_lt hp)
  rw [add_mul, one_mul] at hle
  exact_mod_cast toInt32_natCast (n := p.tokenIndex * n) (by omega)

/-- The offset of a stream fits where that of the last stream does. -/
theorem toInt32_laneIndex_mul {n : ℕ} (hn : 3 * n < 2 ^ 31) :
    toInt32 (p.laneIndex * n) = p.laneIndex * n := by
  have hle : p.laneIndex * n ≤ 3 * n :=
    Nat.mul_le_mul_right _ (Nat.le_of_lt_succ p.laneIndex_lt)
  exact_mod_cast toInt32_natCast (n := p.laneIndex * n) (by omega)

namespace OffsetsFit

variable (h : a.OffsetsFit) (hp : p ∈ a.grid)
include h hp

/-- The ids of the rows of programs are 32-bit integers, for every one of them has columns of the
output. -/
theorem toInt32_pid1 : toInt32 p.pid1 = p.pid1 := by
  have hrows : p.tokenIndex * 1 ≤ p.tokenIndex * a.H := Nat.mul_le_mul_left _ (pos_H_of_mem hp)
  have hlast : (p.tokenIndex + 1) * (4 * a.H) ≤ a.tokens * (4 * a.H) :=
    Nat.mul_le_mul_right _ (tokenIndex_lt hp)
  have hout := h.outToken
  have hpid : p.pid1 / 4 * 4 + p.pid1 % 4 = p.pid1 := Nat.div_add_mod' _ _
  have hlane := p.laneIndex_lt
  rw [add_mul, one_mul, mul_left_comm] at hlast
  rw [Program.tokenIndex] at hrows hlast
  rw [Program.laneIndex] at hlane
  exact toInt32_natCast (by omega)

/-- The token does not wrap. -/
theorem token_eq : p.token = p.tokenIndex := by
  rw [Program.token, h.toInt32_pid1 hp, Int.tdiv_eq_ediv_of_nonneg (Int.natCast_nonneg _)]
  rfl

/-- The lane does not wrap. -/
theorem lane_eq : p.lane = p.laneIndex := by
  rw [Program.lane, h.toInt32_pid1 hp, Int.tmod_eq_emod_of_nonneg (Int.natCast_nonneg _)]
  rfl

/-- The columns do not wrap. -/
theorem cols_eq (i : Fin BLOCK) : p.cols i = p.colIndex i := by
  have hblock : (p.pid0 + 1) * BLOCK ≤ a.blocks * BLOCK :=
    Nat.mul_le_mul_right _ (mem_grid.1 hp).1
  have hend := blocks_mul_lt (a := a)
  have hcolumns := h.outLane
  have hsize : BLOCK = 512 := rfl
  have hi := i.isLt
  rw [add_mul, one_mul] at hblock
  simp only [Program.cols, toInt32_toInt32_mul, toInt32_toInt32_add]
  exact_mod_cast toInt32_natCast (n := p.colIndex i) (by rw [Program.colIndex]; omega)

/-- The offset of the output is that of the stream of the token. -/
theorem outRow_eq : toInt32 (toInt32 (p.token * 4) * a.H) + toInt32 (p.lane * a.H) =
    ((p.pid1 * a.H : ℕ) : ℤ) := by
  have hsum : p.tokenIndex * (4 * a.H) + p.laneIndex * a.H = p.pid1 * a.H := by
    rw [← mul_assoc, ← add_mul, Program.tokenIndex, Program.laneIndex, Nat.div_add_mod']
  have htoken := toInt32_tokenIndex_mul hp h.outToken
  rw [Nat.cast_mul, Nat.cast_ofNat, ← mul_assoc] at htoken
  rw [h.token_eq hp, h.lane_eq hp, toInt32_toInt32_mul, htoken, toInt32_laneIndex_mul h.outLane,
    ← hsum]
  push_cast
  ring

end OffsetsFit

end

/-! ### What is read -/

section

variable {α R : Type*} {a : MhcPost α R} {p : Program}

/-- The last dimension of `post_layer_mix` has one element, so its stride is not passed on. -/
theorem postAddress_eq (hfit : a.OffsetsFit) (hp : p ∈ a.grid) :
    a.postAddress p = a.postLayerMix.offset ![p.tokenIndex, p.laneIndex, 0] := by
  rw [postAddress, hfit.token_eq hp, hfit.lane_eq hp, toInt32_tokenIndex_mul hp hfit.postToken,
    toInt32_laneIndex_mul hfit.postLane]
  simp [Tensor.offset, Fin.sum_univ_three]

/-- The address of a weight is that of an element of `comb_res_mix`. -/
theorem combAddress_eq (hfit : a.OffsetsFit) (hp : p ∈ a.grid) (s : Fin 4) :
    a.combAddress p s = a.combResMix.offset ![p.tokenIndex, s, p.laneIndex] := by
  rw [combAddress, hfit.token_eq hp, hfit.lane_eq hp, toInt32_tokenIndex_mul hp hfit.combToken,
    toInt32_laneIndex_mul hfit.combLane]
  simp [Tensor.offset, Fin.sum_univ_three]

variable [Zero α]

/-- The columns are adjacent, so their stride is not passed on. -/
theorem loadX_address (h : a.Fused) (hfit : a.OffsetsFit) (hp : p ∈ a.grid) (i : Fin BLOCK) :
    (a.loadX p).address i = a.x.offset ![p.tokenIndex, p.colIndex i] := by
  have hstride : a.x.stride 1 = 1 := by
    obtain ⟨-, -, -, -, -, ⟨h1, h2⟩, -⟩ := h
    exact h1.trans h2
  show toInt32 (p.token * a.x.stride 0) + p.cols i = _
  rw [hfit.token_eq hp, hfit.cols_eq hp, toInt32_tokenIndex_mul hp hfit.x]
  simp [Tensor.offset, Fin.sum_univ_two, hstride]

/-- The address of a load is that of an element of `residual`. -/
theorem loadR_address (h : a.Fused) (hfit : a.OffsetsFit) (hp : p ∈ a.grid) (s : Fin 4)
    (i : Fin BLOCK) :
    (a.loadR p s).address i = a.residual.offset ![p.tokenIndex, s, p.colIndex i] := by
  have hstride : a.residual.stride 2 = 1 := by
    obtain ⟨-, -, -, -, -, ⟨-, h2⟩, -⟩ := h
    exact h2
  show toInt32 (p.token * a.residual.stride 0) + s * a.residual.stride 1 + p.cols i = _
  rw [hfit.token_eq hp, hfit.cols_eq hp, toInt32_tokenIndex_mul hp hfit.residual]
  simp [Tensor.offset, Fin.sum_univ_three, hstride]

/-- An address that a program reads is one of an element. -/
theorem reads_subset (h : a.Fused) (hfit : a.OffsetsFit) (hp : p ∈ a.grid) :
    (a.loadX p).reads ⊆ a.x.offsets ∧ (∀ s, (a.loadR p s).reads ⊆ a.residual.offsets) ∧
      a.postAddress p ∈ a.postLayerMix.offsets ∧
      ∀ s, a.combAddress p s ∈ a.combResMix.offsets := by
  have ht : p.tokenIndex < a.tokens := tokenIndex_lt hp
  have hmask : ∀ i, p.cols i < a.H → p.colIndex i < a.H := fun i hi ↦ by
    rw [hfit.cols_eq hp] at hi
    exact_mod_cast hi
  obtain ⟨-, -, hres, hpost, hcomb, -⟩ := id h
  refine ⟨?_, fun s ↦ ?_, ⟨_, ?_, (postAddress_eq hfit hp).symm⟩,
    fun s ↦ ⟨_, ?_, (combAddress_eq hfit hp s).symm⟩⟩
  · rintro _ ⟨i, hi, rfl⟩
    refine ⟨_, ?_, (loadX_address h hfit hp i).symm⟩
    intro k
    match k with
    | 0 => exact ht
    | 1 => exact hmask i hi
  · rintro _ ⟨i, hi, rfl⟩
    refine ⟨_, ?_, (loadR_address h hfit hp s i).symm⟩
    rw [hres]
    intro k
    match k with
    | 0 => exact ht
    | 1 => exact s.isLt
    | 2 => exact hmask i hi
  · rw [hpost]
    intro k
    match k with
    | 0 => exact ht
    | 1 => exact p.laneIndex_lt
    | 2 => exact one_pos
  · rw [hcomb]
    intro k
    match k with
    | 0 => exact ht
    | 1 => exact s.isLt
    | 2 => exact p.laneIndex_lt

end

/-! ### What is written -/

section

variable {α R : Type*} [Zero α] [CommSemiring R] {a : MhcPost α R} {p : Program}
  {d : Tile.Schedule Program α}

/-- A program computes the mixing for the columns that there are. -/
theorem out_eq_mix (h : a.Fused) (hfit : a.OffsetsFit) (hp : p ∈ a.grid) {i : Fin BLOCK}
    (hi : p.colIndex i < a.H) : a.out p i = a.mix p.tokenIndex p.laneIndex (p.colIndex i) := by
  have hmask : p.cols i < a.H := by
    rw [hfit.cols_eq hp]
    exact_mod_cast hi
  have hx : (a.loadX p).value i = a.x.element ![p.tokenIndex, p.colIndex i] := by
    rw [Tile.Load.value_of_mask hmask, loadX_address h hfit hp]
    rfl
  have hr : ∀ s, (a.loadR p s).value i = a.residual.element ![p.tokenIndex, s, p.colIndex i] := by
    intro s
    rw [Tile.Load.value_of_mask hmask, loadR_address h hfit hp]
    rfl
  simp only [out, mix, post, x32, r, c, hx, hr, postAddress_eq hfit hp, combAddress_eq hfit hp,
    Fin.sum_univ_four]
  simp only [Tensor.element]
  ring

/-- The addresses of the stores of a program are those of a block of its row of the output. -/
theorem map_fst_stores_of_mem (hfit : a.OffsetsFit) (hp : p ∈ a.grid) :
    (a.stores p).map Prod.fst =
      ((((List.finRange BLOCK).filter fun i : Fin BLOCK ↦ p.colIndex i < a.H).map
        p.colIndex).map fun c ↦ p.pid1 * a.H + c).map fun n : ℕ ↦ (n : ℤ) := by
  have hfilter : ((List.finRange BLOCK).filter fun i ↦ p.cols i < a.H) =
      (List.finRange BLOCK).filter fun i ↦ p.colIndex i < a.H :=
    List.filter_congr fun i _ ↦ by rw [hfit.cols_eq hp]; exact decide_eq_decide.2 Int.ofNat_lt
  rw [stores, hfilter, List.map_map, List.map_map, List.map_map]
  refine List.map_congr_left fun i _ ↦ ?_
  rw [Function.comp_apply, Function.comp_apply, Function.comp_apply]
  rw [hfit.outRow_eq hp, hfit.cols_eq hp, Nat.cast_add]

/-- **The programs write the rows of the output**, one after the other. -/
theorem map_fst_stores (hfit : a.OffsetsFit) : (a.grid.flatMap a.stores).map Prod.fst =
    (List.range (a.tokens * 4 * a.H)).map fun n : ℕ ↦ (n : ℤ) := by
  have hstores : a.grid.flatMap (fun p ↦ (a.stores p).map Prod.fst) =
      a.grid.flatMap fun p ↦ ((((List.finRange BLOCK).filter
        fun i : Fin BLOCK ↦ p.colIndex i < a.H).map p.colIndex).map
          fun c ↦ p.pid1 * a.H + c).map fun n : ℕ ↦ (n : ℤ) :=
    List.flatMap_congr fun p hp ↦ map_fst_stores_of_mem hfit hp
  rw [List.map_flatMap, hstores, ← Blocks.flatMap_range_map, grid, List.flatMap_assoc,
    List.map_flatMap]
  refine List.flatMap_congr fun pid1 _ ↦ ?_
  rw [List.flatMap_map]
  show ((List.range a.blocks).flatMap fun pid0 ↦ ((((List.finRange BLOCK).filter
    fun i : Fin BLOCK ↦ pid0 * BLOCK + (i : ℕ) < a.H).map fun i : Fin BLOCK ↦
      pid0 * BLOCK + (i : ℕ)).map fun c ↦ pid1 * a.H + c).map fun n : ℕ ↦ (n : ℤ)) = _
  rw [← List.map_flatMap, ← List.map_flatMap, Blocks.flatMap_filter_finRange le_blocks_mul]

/-- **Every element of the output is written once**, in whatever order the programs run. -/
theorem perm_map_fst_trace (hfit : a.OffsetsFit) : ((d.trace a.grid a.stores).map Prod.fst).Perm
    ((List.range (a.tokens * 4 * a.H)).map fun n : ℕ ↦ (n : ℤ)) :=
  (Tile.Schedule.perm_trace.map Prod.fst).trans (.of_eq (map_fst_stores hfit))

/-- An element of the output is written by the program of its token, its stream and the block of its
column. -/
theorem mem_stores {t j c : ℕ} (ht : t < a.tokens) (hj : j < 4) (hc : c < a.H) (h : a.Fused)
    (hfit : a.OffsetsFit) :
    ((((t * 4 + j) * a.H + c : ℕ) : ℤ), a.ofFloat32 a.x.dtype (a.mix t j c)) ∈
      a.grid.flatMap a.stores := by
  have hblock : c / BLOCK * BLOCK + c % BLOCK = c := Nat.div_add_mod' c BLOCK
  have htoken : (t * 4 + j) / 4 = t := by omega
  have hlane : (t * 4 + j) % 4 = j := by omega
  let i : Fin BLOCK := ⟨c % BLOCK, Nat.mod_lt _ (by decide)⟩
  let p : Program := ⟨c / BLOCK, t * 4 + j⟩
  have hcols : p.colIndex i = c := hblock
  have hp : p ∈ a.grid := by
    refine mem_grid.2 ⟨?_, ?_⟩
    · show c / 512 < (a.H + 512 - 1) / 512
      omega
    · show t * 4 + j < a.tokens * 4
      omega
  have hi : p.colIndex i < a.H := hcols.trans_lt hc
  refine List.mem_flatMap.2 ⟨p, hp, List.mem_map.2 ⟨i, List.mem_filter.2 ⟨List.mem_finRange _, ?_⟩,
    Prod.ext ?_ ?_⟩⟩
  · refine decide_eq_true ?_
    rw [hfit.cols_eq hp]
    exact_mod_cast hi
  · show toInt32 (toInt32 (p.token * 4) * a.H) + toInt32 (p.lane * a.H) + p.cols i = _
    rw [hfit.outRow_eq hp, hfit.cols_eq hp, hcols, Nat.cast_add]
  · show a.ofFloat32 a.x.dtype (a.out p i) = _
    rw [out_eq_mix h hfit hp hi, hcols]
    simp only [p, Program.tokenIndex, Program.laneIndex, htoken, hlane]

/-- What the launch leaves is the mixing. -/
theorem element_outTensor {t j c : ℕ} (ht : t < a.tokens) (hj : j < 4) (hc : c < a.H)
    (h : a.Fused) (hfit : a.OffsetsFit) :
    (a.outTensor (d.launch a.grid a.stores)).element ![t, j, c] =
      a.ofFloat32 a.x.dtype (a.mix t j c) := by
  have hshape : a.residual.shape = ![a.tokens, 4, a.H] := by
    obtain ⟨-, -, hres, -⟩ := h
    exact hres
  have hoffset : (a.outTensor (d.launch a.grid a.stores)).offset ![t, j, c] =
      (((t * 4 + j) * a.H + c : ℕ) : ℤ) := by
    simp [outTensor, Tensor.offset, Fin.sum_univ_three, hshape, mul_assoc, add_mul]
  have hnodup : ((d.trace a.grid a.stores).map Prod.fst).Nodup :=
    (perm_map_fst_trace hfit).nodup_iff.2 (List.nodup_range.map Nat.cast_injective)
  rw [Tensor.element, hoffset]
  exact Tile.Schedule.launch_eq_of_nodup hnodup (mem_stores ht hj hc h hfit)

/-- **The fused mixing is the mixing that the call asks for**, whatever the strides of the inputs,
whichever order the programs run in and whatever fresh memory holds, where the kernel compiles and
its offsets fit: every element of the output is that of the mixing, every element is written once
and nothing else is, and every address that a program reads is one of an element of its tensor. -/
theorem mhcPost_refines (a : MhcPost α R) (h : a.Fused) (hcompiles : a.Compiles)
    (hfit : a.OffsetsFit) (torch mhcPost : MhcPost α R → Option (Tensor 3 α))
    (d : Tile.Schedule Program α) :
    (∃ out, a.mhcPostDispatch false torch mhcPost d = some out ∧
      ∀ t < a.tokens, ∀ j < 4, ∀ c < a.H,
        out.element ![t, j, c] = a.ofFloat32 a.x.dtype (a.mix t j c)) ∧
    ((d.trace a.grid a.stores).map Prod.fst).Perm
      ((List.range (a.tokens * 4 * a.H)).map fun n : ℕ ↦ (n : ℤ)) ∧
    ∀ p ∈ a.grid, (a.loadX p).reads ⊆ a.x.offsets ∧
      (∀ s, (a.loadR p s).reads ⊆ a.residual.offsets) ∧
      a.postAddress p ∈ a.postLayerMix.offsets ∧ ∀ s, a.combAddress p s ∈ a.combResMix.offsets := by
  have hdispatch : a.mhcPostDispatch false torch mhcPost d = a.mhcPostHip d := if_pos h
  refine ⟨?_, perm_map_fst_trace hfit, fun p hp ↦ reads_subset h hfit hp⟩
  rw [hdispatch, mhcPostHip]
  by_cases hnumel : a.tokens * a.H ≠ 0
  · rw [if_pos hnumel, if_pos hcompiles]
    exact ⟨_, rfl, fun t ht j hj c hc ↦ element_outTensor ht hj hc h hfit⟩
  · rw [if_neg hnumel]
    refine ⟨_, rfl, fun t ht j _ c hc ↦ ?_⟩
    exact absurd (Nat.mul_pos (Nat.zero_lt_of_lt ht) (Nat.zero_lt_of_lt hc)).ne' hnumel

end

/-- One token of one column: the streams are every other element of a larger tensor, and
`comb_res_mix` is transposed. -/
def transposed : MhcPost ℚ ℚ where
  x := ⟨fun _ ↦ 5, ![1, 1], ![3, 1], .float32, true⟩
  residual := ⟨fun i ↦ i + 1, ![1, 4, 1], ![8, 2, 1], .float32, true⟩
  postLayerMix := ⟨fun _ ↦ 2, ![1, 4, 1], ![4, 1, 7], .float32, true⟩
  combResMix := ⟨fun i ↦ if i = 4 then 3 else 0, ![1, 4, 4], ![16, 1, 4], .float32, true⟩
  hip := true
  toFloat32 _ x := x
  ofFloat32 _ x := x

/-- The transposed inputs compile, and their offsets fit. -/
theorem compiles_transposed : transposed.Compiles ∧ transposed.OffsetsFit := by
  have hlast : (![16, 1, 4] : Fin 3 → ℕ) 2 = 4 := rfl
  have hcompiles : transposed.Compiles := by
    norm_num [Compiles, InInt32, transposed, H, hlast]
  have hfit : transposed.OffsetsFit := by
    constructor <;> norm_num [transposed, H, tokens, hlast]
  exact ⟨hcompiles, hfit⟩

/-- The second stream is `2 * 5` and three times the first residual stream, in memory that is not
zero before. -/
theorem mhcPost_refines_transposed : ∃ out,
    transposed.mhcPostDispatch false (fun _ ↦ none) (fun _ ↦ none) (.lastFirst fun _ ↦ 7) =
      some out ∧ out.element ![0, 1, 0] = 13 := by
  obtain ⟨⟨out, hdispatch, hout⟩, -⟩ := mhcPost_refines transposed (by decide)
    compiles_transposed.1 compiles_transposed.2 (fun _ ↦ none) (fun _ ↦ none)
    (.lastFirst fun _ ↦ 7)
  refine ⟨out, hdispatch, ?_⟩
  rw [hout 0 one_pos 1 (by decide) 0 one_pos]
  norm_num [mix, transposed, Tensor.element, Tensor.offset, Fin.sum_univ_succ]

end MhcPost

end Sglang
