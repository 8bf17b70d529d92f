import TileLayout.Growth
import Mathlib.Tactic.Linarith
import Mathlib.Tactic.LinearCombination
/-!
# GEMM register fragments

The Ampere and Volta `mma` fragment factories.  Each builds a base tile by hand (`8x8`, its
transpose, `32x32`, or the Volta `A` tile) and grows it to the warp and block tile with
`Repeat` and `Replicate`.  The base tiles are checked here by their digit structure: thread
and register index are mixed-radix numbers over bits of the element coordinates.  The
factories are then proved by chaining the growth lemmas of `TileLayout.Growth`.

The factories call `Repeat` without its last argument at some places.  Its default is set in
`layout.h`, which is not part of the repository, so it is the parameter `lowerDimFirst`
here; every result holds for both values.  Parameters are C++ `int`s: `/` and `%` truncate.
-/

namespace TileLayout

open Fragment

/-! ## Base tiles -/

section Base

theorem inBox_three {A B C : Range} {p : List Int} :
    InBox [A, B, C] p ↔ ∃ i j r, p = [i, j, r] ∧ A.Contains i ∧ B.Contains j ∧ C.Contains r := by
  match p with
  | [i, j, r] =>
      simp only [inBox_cons_cons, inBox_nil_left, and_true, List.cons.injEq]
      exact ⟨fun h => ⟨i, j, r, ⟨rfl, rfl, rfl⟩, h⟩, fun ⟨_, _, _, ⟨hi, hj, hr⟩, h⟩ => hi ▸ hj ▸ hr ▸ h⟩
  | [] | [_] | [_, _] | _ :: _ :: _ :: _ :: _ => simp [InBox]

/-- A two-dimensional fragment with one index is valid with the given extents when, on its box,
index and thread land in `[0, L)` and `[0, T)`, together they determine the element and the
replica, and the box has `L * T` points. -/
theorem validAt_of_arith {F : Fragment} {a b L T R : Int} {e : PrimExpr}
    (hvars : F.forwardVar = [Range.ofExtent a, Range.ofExtent b])
    (hrep : F.threadReplicate = Range.ofExtent R) (hidx : F.forwardIndex = [e])
    (hfree : e.freeOf 2 = true) (hext : 0 < a ∧ 0 < b ∧ 0 < R) (hL : 0 < L) (hT : 0 < T)
    (hmaps : ∀ i j r, 0 ≤ i → i < a → 0 ≤ j → j < b → 0 ≤ r → r < R →
      (0 ≤ e.valueAt [i, j, r] ∧ e.valueAt [i, j, r] < L) ∧
        0 ≤ F.forwardThread.valueAt [i, j, r] ∧ F.forwardThread.valueAt [i, j, r] < T)
    (hinj : ∀ i j r i' j' r', 0 ≤ i → i < a → 0 ≤ j → j < b → 0 ≤ r → r < R →
      0 ≤ i' → i' < a → 0 ≤ j' → j' < b → 0 ≤ r' → r' < R →
      e.valueAt [i, j, r] = e.valueAt [i', j', r'] →
      F.forwardThread.valueAt [i, j, r] = F.forwardThread.valueAt [i', j', r'] →
      i = i' ∧ j = j' ∧ r = r')
    (hcard : a * b * R = L * T) : F.ValidAt [a, b] [L] T R := by
  have hbv : F.boundVars = [Range.ofExtent a, Range.ofExtent b, Range.ofExtent R] := by
    simp [boundVars, hvars, hrep]
  have happ : ∀ i j r, F.fullLayout.apply [i, j, r] =
      [e.valueAt [i, j, r], F.forwardThread.valueAt [i, j, r]] := by
    simp [fullLayout, Layout.apply, hidx]
  have hbij : Set.BijOn F.fullLayout.apply (boxSet F.boundVars) (boxSet (shapeBox ([L] ++ [T]))) := by
    rw [hbv]
    refine bijOn_of_injOn ?_ ?_ ?_
    · intro p hp
      obtain ⟨i, j, r, rfl, hi, hj, hr⟩ := inBox_three.1 hp
      simp only [contains_ofExtent] at hi hj hr
      simpa [boxSet, happ, shapeBox] using hmaps i j r hi.1 hi.2 hj.1 hj.2 hr.1 hr.2
    · intro p hp p' hp' h
      obtain ⟨i, j, r, rfl, hi, hj, hr⟩ := inBox_three.1 hp
      obtain ⟨i', j', r', rfl, hi', hj', hr'⟩ := inBox_three.1 hp'
      simp only [contains_ofExtent] at hi hj hr hi' hj' hr'
      simp only [happ, List.cons.injEq, and_true] at h
      obtain ⟨rfl, rfl, rfl⟩ := hinj i j r i' j' r' hi.1 hi.2 hj.1 hj.2 hr.1 hr.2 hi'.1 hi'.2
        hj'.1 hj'.2 hr'.1 hr'.2 h.1 h.2
      rfl
    · refine boxCard_shapeBox_le (by simpa using ⟨hL.le, hT.le⟩)
        (by simpa [Range.ofExtent] using ⟨hext.1.le, hext.2.1.le, hext.2.2.le⟩) ?_
      simp only [List.singleton_append, List.prod_cons, List.prod_nil, List.map_cons,
        List.map_nil, Range.ofExtent, mul_one, one_mul]
      rw [← mul_assoc, hcard]
  have hfree' : F.IndexFree :=
    indexFree_of_freeOf (by simpa [hidx, inputDim, hvars] using hfree)
  obtain ⟨hv, hL', hT'⟩ := valid_of_bijOn (by simp [hbv, Range.ofExtent]) hfree' (by simpa using hL)
    hT hbij
  exact ⟨hv, by simp [inputShape, hvars, Range.ofExtent], hL', hT',
    by simp [replicateExtent, hrep, Range.ofExtent]⟩

/-- `makeGemmFragment8x8()`: thread `FloorDiv(j, 2) + 4 * i` holds the pair `FloorMod(j, 2)` of
row `i`. -/
def makeGemmFragment8x8 : Except String Fragment :=
  Fragment.make [Range.ofExtent 8, Range.ofExtent 8] [.floorMod (.var 1) (.int 2)]
    (.add (.floorDiv (.var 1) (.int 2)) (.mul (.int 4) (.var 0))) (some (Range.ofExtent 1))

/-- `makeGemmFragment8x8Transposed()`: rows and columns exchanged. -/
def makeGemmFragment8x8Transposed : Except String Fragment :=
  Fragment.make [Range.ofExtent 8, Range.ofExtent 8] [.floorMod (.var 0) (.int 2)]
    (.add (.floorDiv (.var 0) (.int 2)) (.mul (.int 4) (.var 1))) (some (Range.ofExtent 1))

theorem makeGemmFragment8x8_spec : ∃ F, makeGemmFragment8x8 = .ok F ∧
    F.ValidAt [8, 8] [2] 32 1 ∧ ∀ i j r, F.threadAt [i, j] r = j / 2 + 4 * i := by
  refine ⟨_, rfl, validAt_of_arith rfl rfl rfl rfl (by norm_num) (by norm_num) (by norm_num)
    ?_ ?_ (by norm_num), fun i j r => ?_⟩
  · intro i j r _ _ _ _ _ _
    simp [Int.fdiv_eq_ediv, Int.fmod_eq_emod]
    omega
  · intro i j r i' j' r' _ _ _ _ _ _ _ _ _ _ _ _ h1 h2
    simp [Int.fdiv_eq_ediv, Int.fmod_eq_emod] at h1 h2
    omega
  · simp [threadAt, Int.fdiv_eq_ediv]

theorem makeGemmFragment8x8Transposed_spec : ∃ F, makeGemmFragment8x8Transposed = .ok F ∧
    F.ValidAt [8, 8] [2] 32 1 ∧ ∀ i j r, F.threadAt [i, j] r = i / 2 + 4 * j := by
  refine ⟨_, rfl, validAt_of_arith rfl rfl rfl rfl (by norm_num) (by norm_num) (by norm_num)
    ?_ ?_ (by norm_num), fun i j r => ?_⟩
  · intro i j r _ _ _ _ _ _
    simp [Int.fdiv_eq_ediv, Int.fmod_eq_emod]
    omega
  · intro i j r i' j' r' _ _ _ _ _ _ _ _ _ _ _ _ h1 h2
    simp [Int.fdiv_eq_ediv, Int.fmod_eq_emod] at h1 h2
    omega
  · simp [threadAt, Int.fdiv_eq_ediv]

/-- `makeGemmFragment32x32(element_size)`: the Volta accumulator tile of one warp.  Thread and
register index each collect five bits of the row `i` and the column `j`. -/
def makeGemmFragment32x32 (elementSize : Int) : Except String Fragment := do
  icheck (elementSize == 16 || elementSize == 32) "element_size == 16 || element_size == 32"
  if elementSize = 16 then
    Fragment.make [Range.ofExtent 32, Range.ofExtent 32]
      [.add (.add (.add (.floorMod (.var 1) (.int 4)) (.mul (.floorDiv (.var 1) (.int 16)) (.int 4)))
        (.mul (.floorDiv (.floorMod (.var 0) (.int 8)) (.int 4)) (.int 8)))
        (.mul (.floorDiv (.floorMod (.var 1) (.int 8)) (.int 4)) (.int 16))]
      (.add (.add (.add (.floorMod (.var 0) (.int 4))
        (.mul (.floorDiv (.floorMod (.var 0) (.int 16)) (.int 8)) (.int 4)))
        (.mul (.floorDiv (.floorMod (.var 1) (.int 16)) (.int 8)) (.int 8)))
        (.mul (.floorDiv (.var 0) (.int 16)) (.int 16)))
      (some (Range.ofExtent 1))
  else
    Fragment.make [Range.ofExtent 32, Range.ofExtent 32]
      [.add (.add (.add (.add (.floorMod (.var 1) (.int 2))
        (.mul (.int 2) (.floorDiv (.floorMod (.var 0) (.int 4)) (.int 2))))
        (.mul (.floorDiv (.var 1) (.int 16)) (.int 4)))
        (.mul (.floorDiv (.floorMod (.var 0) (.int 8)) (.int 4)) (.int 8)))
        (.mul (.floorDiv (.floorMod (.var 1) (.int 8)) (.int 4)) (.int 16))]
      (.add (.add (.add (.add (.floorMod (.var 0) (.int 2))
        (.mul (.int 2) (.floorDiv (.floorMod (.var 1) (.int 4)) (.int 2))))
        (.mul (.floorDiv (.floorMod (.var 0) (.int 16)) (.int 8)) (.int 4)))
        (.mul (.floorDiv (.floorMod (.var 1) (.int 16)) (.int 8)) (.int 8)))
        (.mul (.floorDiv (.var 0) (.int 16)) (.int 16)))
      (some (Range.ofExtent 1))

/-- The base tile `makeGemmVoltaFragmentA` builds by hand: `32 x 4` elements, two replicas, the
replica selecting thread `8 * rep` onward. -/
def makeGemmVoltaFragmentABase : Except String Fragment :=
  Fragment.make [Range.ofExtent 32, Range.ofExtent 4]
    [.add (.var 1) (.mul (.floorDiv (.floorMod (.var 0) (.int 8)) (.int 4)) (.int 4))]
    (.add (.add (.add (.mul (.floorDiv (.floorMod (.var 0) (.int 16)) (.int 8)) (.int 4))
      (.mul (.int 16) (.floorDiv (.var 0) (.int 16)))) (.floorMod (.var 0) (.int 4)))
      (.mul (.int 8) (.var 2)))
    (some (Range.ofExtent 2))

/-- A coordinate is fixed by its bits `i % 4`, `i % 8 / 4`, `i % 16 / 8` and by `i / 16`. -/
theorem eq_of_digits_4_2_2 {i i' : Int} (h1 : i % 4 = i' % 4)
    (h2 : i % 8 / 4 = i' % 8 / 4) (h3 : i % 16 / 8 = i' % 16 / 8) (h4 : i / 16 = i' / 16) :
    i = i' := by omega

/-- A coordinate is fixed by its bits `i % 2`, …, `i % 16 / 8` and by `i / 16`. -/
theorem eq_of_digits_2_2_2_2 {i i' : Int} (h1 : i % 2 = i' % 2)
    (h2 : i % 4 / 2 = i' % 4 / 2) (h3 : i % 8 / 4 = i' % 8 / 4) (h4 : i % 16 / 8 = i' % 16 / 8)
    (h5 : i / 16 = i' / 16) : i = i' := by omega

theorem makeGemmFragment32x32_spec {elementSize : Int}
    (hes : elementSize = 16 ∨ elementSize = 32) :
    ∃ F, makeGemmFragment32x32 elementSize = .ok F ∧ F.ValidAt [32, 32] [32] 32 1 := by
  rcases hes with rfl | rfl
  · refine ⟨_, rfl, validAt_of_arith rfl rfl rfl rfl (by norm_num) (by norm_num) (by norm_num)
      ?_ ?_ (by norm_num)⟩
    · intro i j r _ _ _ _ _ _
      simp [Int.fdiv_eq_ediv, Int.fmod_eq_emod]
      omega
    · intro i j r i' j' r' _ _ _ _ _ _ _ _ _ _ _ _ h1 h2
      simp [Int.fdiv_eq_ediv, Int.fmod_eq_emod] at h1 h2
      have hthd : [(i % 4, 4), (i % 16 / 8, 2), (j % 16 / 8, 2), (i / 16, 2)] =
          [(i' % 4, (4 : Int)), (i' % 16 / 8, 2), (j' % 16 / 8, 2), (i' / 16, 2)] :=
        mixedRadix_inj (by clear h1 h2; simp only [digitsIn_cons, digitsIn_nil, and_true]; omega)
          (by clear h1 h2; simp only [digitsIn_cons, digitsIn_nil, and_true]; omega) rfl
          (by simp only [mixedRadix]; linarith)
      have hidx : [(j % 4, 4), (j / 16, 2), (i % 8 / 4, 2), (j % 8 / 4, 2)] =
          [(j' % 4, (4 : Int)), (j' / 16, 2), (i' % 8 / 4, 2), (j' % 8 / 4, 2)] :=
        mixedRadix_inj (by clear h1 h2; simp only [digitsIn_cons, digitsIn_nil, and_true]; omega)
          (by clear h1 h2; simp only [digitsIn_cons, digitsIn_nil, and_true]; omega) rfl
          (by simp only [mixedRadix]; linarith)
      simp only [List.cons.injEq, Prod.mk.injEq, and_true] at hthd hidx
      exact ⟨eq_of_digits_4_2_2 hthd.1 hidx.2.2.1 hthd.2.1 hthd.2.2.2,
        eq_of_digits_4_2_2 hidx.1 hidx.2.2.2 hthd.2.2.1 hidx.2.1, by omega⟩
  · refine ⟨_, rfl, validAt_of_arith rfl rfl rfl rfl (by norm_num) (by norm_num) (by norm_num)
      ?_ ?_ (by norm_num)⟩
    · intro i j r _ _ _ _ _ _
      simp [Int.fdiv_eq_ediv, Int.fmod_eq_emod]
      omega
    · intro i j r i' j' r' _ _ _ _ _ _ _ _ _ _ _ _ h1 h2
      simp [Int.fdiv_eq_ediv, Int.fmod_eq_emod] at h1 h2
      have hthd : [(i % 2, 2), (j % 4 / 2, 2), (i % 16 / 8, 2), (j % 16 / 8, 2), (i / 16, 2)] =
          [(i' % 2, (2 : Int)), (j' % 4 / 2, 2), (i' % 16 / 8, 2), (j' % 16 / 8, 2), (i' / 16, 2)] :=
        mixedRadix_inj (by clear h1 h2; simp only [digitsIn_cons, digitsIn_nil, and_true]; omega)
          (by clear h1 h2; simp only [digitsIn_cons, digitsIn_nil, and_true]; omega) rfl
          (by simp only [mixedRadix]; linarith)
      have hidx : [(j % 2, 2), (i % 4 / 2, 2), (j / 16, 2), (i % 8 / 4, 2), (j % 8 / 4, 2)] =
          [(j' % 2, (2 : Int)), (i' % 4 / 2, 2), (j' / 16, 2), (i' % 8 / 4, 2), (j' % 8 / 4, 2)] :=
        mixedRadix_inj (by clear h1 h2; simp only [digitsIn_cons, digitsIn_nil, and_true]; omega)
          (by clear h1 h2; simp only [digitsIn_cons, digitsIn_nil, and_true]; omega) rfl
          (by simp only [mixedRadix]; linarith)
      simp only [List.cons.injEq, Prod.mk.injEq, and_true] at hthd hidx
      exact ⟨eq_of_digits_2_2_2_2 hthd.1 hidx.2.1 hidx.2.2.2.1 hthd.2.2.1 hthd.2.2.2.2,
        eq_of_digits_2_2_2_2 hidx.1 hthd.2.1 hidx.2.2.2.2 hthd.2.2.2.1 hidx.2.2.1, by omega⟩

theorem makeGemmVoltaFragmentABase_spec : ∃ F, makeGemmVoltaFragmentABase = .ok F ∧
    F.ValidAt [32, 4] [8] 32 2 := by
  refine ⟨_, rfl, validAt_of_arith rfl rfl rfl rfl (by norm_num) (by norm_num) (by norm_num)
    ?_ ?_ (by norm_num)⟩
  · intro i j r _ _ _ _ _ _
    simp [Int.fdiv_eq_ediv, Int.fmod_eq_emod]
    omega
  · intro i j r i' j' r' _ _ _ _ _ _ _ _ _ _ _ _ h1 h2
    simp [Int.fdiv_eq_ediv, Int.fmod_eq_emod] at h1 h2
    have hthd : [(i % 4, 4), (i % 16 / 8, 2), (r, 2), (i / 16, 2)] =
        [(i' % 4, (4 : Int)), (i' % 16 / 8, 2), (r', 2), (i' / 16, 2)] :=
      mixedRadix_inj (by clear h1 h2; simp only [digitsIn_cons, digitsIn_nil, and_true]; omega)
        (by clear h1 h2; simp only [digitsIn_cons, digitsIn_nil, and_true]; omega) rfl
        (by simp only [mixedRadix]; linarith)
    have hidx : [(j, 4), (i % 8 / 4, 2)] = [(j', (4 : Int)), (i' % 8 / 4, 2)] :=
      mixedRadix_inj (by clear h1 h2; simp only [digitsIn_cons, digitsIn_nil, and_true]; omega)
        (by clear h1 h2; simp only [digitsIn_cons, digitsIn_nil, and_true]; omega) rfl
        (by simp only [mixedRadix]; linarith)
    simp only [List.cons.injEq, Prod.mk.injEq, and_true] at hthd hidx
    exact ⟨eq_of_digits_4_2_2 hthd.1 hidx.2 hthd.2.1 hthd.2.2.2, hidx.1, hthd.2.2.1⟩

end Base

/-! ## Factories -/

/-- `makeGemmFragmentC_F64(block_m, block_n, warp_m, warp_n)`. -/
def makeGemmFragmentC_F64 (blockM blockN warpM warpN : Int) : Except String Fragment := do
  icheck (blockM.tmod warpM == 0) "block_m % warp_m == 0"
  icheck (blockN.tmod warpN == 0) "block_n % warp_n == 0"
  icheck (warpM.tmod 16 == 0) "warp_m % 16 == 0"
  icheck (warpN.tmod 16 == 0) "warp_n % 16 == 0"
  let baseLayout ← makeGemmFragment8x8
  let warpLayout ← baseLayout.repeat [blockM.tdiv warpM, blockN.tdiv warpN] true false
  warpLayout.repeat [warpM.tdiv 8, warpN.tdiv 8] false false

/-- `makeGemmFragmentC(block_m, block_n, warp_m, warp_n, element_size)`: the accumulator. -/
def makeGemmFragmentC (lowerDimFirst : Bool) (blockM blockN warpM warpN elementSize : Int) :
    Except String Fragment :=
  if elementSize = 64 then makeGemmFragmentC_F64 blockM blockN warpM warpN else do
  icheck (blockM.tmod warpM == 0) "block_m % warp_m == 0"
  icheck (blockN.tmod warpN == 0) "block_n % warp_n == 0"
  icheck (warpM.tmod 16 == 0) "warp_m % 16 == 0"
  icheck (warpN.tmod 16 == 0) "warp_n % 16 == 0"
  let baseLayout ← (← makeGemmFragment8x8).repeat [2, 1] false lowerDimFirst
  let warpLayout ← baseLayout.repeat [blockM.tdiv warpM, blockN.tdiv warpN] true false
  warpLayout.repeat [warpM.tdiv 16, warpN.tdiv 8] false false

/-- `makeGemmFragmentA(block_m, block_n, block_k, warp_m, warp_n)`: operand `A`, not transposed;
each warp column of the block holds its own replica. -/
def makeGemmFragmentA (lowerDimFirst : Bool) (blockM blockN blockK warpM warpN : Int) :
    Except String Fragment := do
  icheck (blockM.tmod warpM == 0) "block_m % warp_m == 0"
  icheck (blockN.tmod warpN == 0) "block_n % warp_n == 0"
  icheck (warpM.tmod 16 == 0) "warp_m % 16 == 0"
  icheck (blockK.tmod 16 == 0) "block_k % 16 == 0"
  let baseLayout ← (← makeGemmFragment8x8).repeat [2, 2] false false
  let warpLayout ← (← baseLayout.repeat [blockM.tdiv warpM, 1] true lowerDimFirst).replicate
    (blockN.tdiv warpN)
  warpLayout.repeat [warpM.tdiv 16, blockK.tdiv 16] false false

/-- `makeGemmFragmentB(block_m, block_n, block_k, warp_m, warp_n)`: operand `B`, transposed; each
warp row of the block holds its own replica. -/
def makeGemmFragmentB (lowerDimFirst : Bool) (blockM blockN blockK warpM warpN : Int) :
    Except String Fragment := do
  icheck (warpN.tmod 8 == 0) "warp_n % 8 == 0"
  icheck (blockK.tmod 16 == 0) "block_k % 16 == 0"
  let baseLayout ← (← makeGemmFragment8x8Transposed).repeat [2, 1] false false
  let warpLayout ← (← baseLayout.replicate (blockM.tdiv warpM)).repeat [1, blockN.tdiv warpN] true
    lowerDimFirst
  warpLayout.repeat [blockK.tdiv 16, warpN.tdiv 8] false true

/-- `makeGemmVoltaFragmentC(block_m, block_n, warp_m, warp_n, element_size)`. -/
def makeGemmVoltaFragmentC (lowerDimFirst : Bool) (blockM blockN warpM warpN elementSize : Int) :
    Except String Fragment := do
  icheck (blockM.tmod warpM == 0) "block_m % warp_m == 0"
  icheck (blockN.tmod warpN == 0) "block_n % warp_n == 0"
  icheck (warpM.tmod 32 == 0) "warp_m % 32 == 0"
  icheck (warpN.tmod 32 == 0) "warp_n % 32 == 0"
  let baseLayout ← makeGemmFragment32x32 elementSize
  let warpLayout ← baseLayout.repeat [warpM.tdiv 32, warpN.tdiv 32] false false
  warpLayout.repeat [blockM.tdiv warpM, blockN.tdiv warpN] true lowerDimFirst

/-- `makeGemmVoltaFragmentA(block_m, block_n, block_k, warp_m, warp_n)`. -/
def makeGemmVoltaFragmentA (lowerDimFirst : Bool) (blockM blockN blockK warpM warpN : Int) :
    Except String Fragment := do
  icheck (blockM.tmod warpM == 0) "block_m % warp_m == 0"
  icheck (blockN.tmod warpN == 0) "block_n % warp_n == 0"
  icheck (warpM.tmod 32 == 0) "warp_m % 32 == 0"
  icheck (blockK.tmod 4 == 0) "block_k % 4 == 0"
  let baseLayout ← makeGemmVoltaFragmentABase
  let warpLayout ← baseLayout.repeat [warpM.tdiv 32, blockK.tdiv 4] false false
  (← warpLayout.replicate (blockN.tdiv warpN)).repeat [blockM.tdiv warpM, 1] true lowerDimFirst

/-! ## The factories return valid partitions of the block tile -/

section Params

variable {a b : Int}

/-- A C++ `%` check on nonnegative operands. -/
theorem tmod_check (ha : 0 ≤ a) (hb : 0 ≤ b) (h : a % b = 0) : (a.tmod b == 0) = true := by
  simp [Int.tmod_eq_emod ha hb, h]

theorem tdiv_pos (ha : 0 < a) (hb : 0 < b) (h : a % b = 0) : 0 < a / b :=
  Int.ediv_pos_of_pos_of_dvd ha hb.le (Int.dvd_of_emod_eq_zero h)

theorem ediv_mul_eq (h : a % b = 0) : a / b * b = a :=
  Int.ediv_mul_cancel (Int.dvd_of_emod_eq_zero h)

theorem one_le_ediv (hb : 0 < b) (h : b ≤ a) : 1 ≤ a / b :=
  Int.le_ediv_of_mul_le hb (by simpa using h)

end Params

theorem ediv_add_mul_self {t T q : Int} (ht : 0 ≤ t ∧ t < T) : (t + T * q) / T = q := by
  rw [Int.add_mul_ediv_left _ _ (by omega), Int.ediv_eq_zero_of_lt ht.1 ht.2, zero_add]

/-- The accumulator tile of `makeGemmFragmentC`: the block `[block_m, block_n]`, with warp
`(m % (16 Mw)) / 16 + Mw * ((n % (8 Nw)) / 8)` holding element `(m, n)`, where `Mw` and `Nw` count
the warps along `m` and `n`. -/
theorem makeGemmFragmentC_spec (ldf : Bool) {bm bn wm wn es : Int}
    (hpos : 0 < bm ∧ 0 < bn ∧ 0 < wm ∧ 0 < wn) (hbm : bm % wm = 0) (hbn : bn % wn = 0)
    (hwm : wm % 16 = 0) (hwn : wn % 16 = 0) (hes : es ≠ 64) :
    ∃ G, makeGemmFragmentC ldf bm bn wm wn es = .ok G ∧
      G.ValidAt [bm, bn] [4 * (wm / 16) * (wn / 8)] (32 * (bm / wm) * (bn / wn)) 1 ∧
      ∀ m n, 0 ≤ m → m < bm → 0 ≤ n → n < bn →
        G.threadAt [m, n] 0 / 32 = m % (16 * (bm / wm)) / 16 + bm / wm * (n % (8 * (bn / wn)) / 8) := by
  obtain ⟨h0, h1, h2, h3⟩ := hpos
  obtain ⟨B, hB, hBv, -⟩ := makeGemmFragment8x8_spec
  have hMw := tdiv_pos h0 h2 hbm
  have hNw := tdiv_pos h1 h3 hbn
  have hm16 := tdiv_pos h2 (by norm_num) hwm
  have hn8 : 0 < wn / 8 := tdiv_pos h3 (by norm_num) (by omega)
  have v1 : (B.repeatOnIndex [2, 1] ldf 2).ValidAt [16, 8] [4] 32 1 :=
    (hBv.repeatOnIndex [2, 1] ldf rfl (by simp)).of_eq rfl rfl rfl rfl
  have v2 : ((B.repeatOnIndex [2, 1] ldf 2).repeatOnThread [bm / wm, bn / wn] false 32).ValidAt
      [16 * (bm / wm), 8 * (bn / wn)] [4] (32 * (bm / wm) * (bn / wn)) 1 :=
    (v1.repeatOnThread [bm / wm, bn / wn] false rfl (by simp [hMw, hNw])).of_eq (by simp) rfl
      (by simp [mul_assoc]) rfl
  have v3 := v2.repeatOnIndex [wm / 16, wn / 8] false rfl (by simp [hm16, hn8])
  refine ⟨_, ?_, v3.of_eq ?_ (by simp [mul_assoc]) rfl rfl, fun m n hm0 hm1 hn0 hn1 => ?_⟩
  · simp only [makeGemmFragmentC, if_neg hes, icheck, tmod_check h0.le h2.le hbm,
      tmod_check h1.le h3.le hbn, tmod_check h2.le (by norm_num) hwm,
      tmod_check h3.le (by norm_num) hwn, if_true, pure_bind, hB, Except.ok_bind,
      hBv.repeat_false [2, 1] ldf rfl, Int.tdiv_eq_ediv h0.le h2.le, Int.tdiv_eq_ediv h1.le h3.le,
      Int.tdiv_eq_ediv h2.le (by norm_num : (0 : Int) ≤ 16),
      Int.tdiv_eq_ediv h3.le (by norm_num : (0 : Int) ≤ 8),
      v1.repeat_true [bm / wm, bn / wn] false rfl, v2.repeat_false [wm / 16, wn / 8] false rfl]
  · have e3 := ediv_mul_eq hwm
    have e4 : wn / 8 * 8 = wn := ediv_mul_eq (by omega)
    simp only [List.zipWith_cons_cons, List.zipWith_nil_right, List.cons.injEq, and_true]
    exact ⟨by linear_combination ediv_mul_eq hbm + bm / wm * e3,
      by linear_combination ediv_mul_eq hbn + bn / wn * e4⟩
  · have hM : 0 < 16 * (bm / wm) := by omega
    have hN : 0 < 8 * (bn / wn) := by omega
    rw [threadAt_repeatOnIndex _ _ _ _ _ (by simp [v2.inputDim_eq]), v2.inputShape_eq,
      threadAt_repeatOnThread _ _ _ _ _ (by simp [v1.inputDim_eq]), v1.inputShape_eq]
    simp only [modPoint, List.zipWith_cons_cons, List.zipWith_nil_right]
    rw [tileIndex_pair false v1.inputShape_eq, if_neg Bool.false_ne_true,
      ediv_add_mul_self (v1.threadAt_mem ?_ (by norm_num)), Int.fmod_eq_emod _ hM.le,
      Int.fmod_eq_emod _ hN.le, Int.fdiv_eq_ediv _ (by norm_num), Int.fdiv_eq_ediv _ (by norm_num)]
    simp [shapeBox, fmod_mem _ (by norm_num : (0 : Int) < 16), fmod_mem _ (by norm_num : (0 : Int) < 8)]

theorem makeGemmFragmentC_F64_spec {bm bn wm wn : Int}
    (hpos : 0 < bm ∧ 0 < bn ∧ 0 < wm ∧ 0 < wn) (hbm : bm % wm = 0) (hbn : bn % wn = 0)
    (hwm : wm % 16 = 0) (hwn : wn % 16 = 0) :
    ∃ G, makeGemmFragmentC_F64 bm bn wm wn = .ok G ∧
      G.ValidAt [bm, bn] [2 * (wm / 8) * (wn / 8)] (32 * (bm / wm) * (bn / wn)) 1 := by
  obtain ⟨h0, h1, h2, h3⟩ := hpos
  obtain ⟨B, hB, hBv, -⟩ := makeGemmFragment8x8_spec
  have hMw := tdiv_pos h0 h2 hbm
  have hNw := tdiv_pos h1 h3 hbn
  have hm8 : 0 < wm / 8 := tdiv_pos h2 (by norm_num) (by omega)
  have hn8 : 0 < wn / 8 := tdiv_pos h3 (by norm_num) (by omega)
  have v1 := hBv.repeatOnThread [bm / wm, bn / wn] false rfl (by simp [hMw, hNw])
  have v2 := v1.repeatOnIndex [wm / 8, wn / 8] false rfl (by simp [hm8, hn8])
  refine ⟨_, ?_, v2.of_eq ?_ ?_ ?_ rfl⟩
  · simp only [makeGemmFragmentC_F64, icheck, tmod_check h0.le h2.le hbm,
      tmod_check h1.le h3.le hbn, tmod_check h2.le (by norm_num) hwm,
      tmod_check h3.le (by norm_num) hwn, if_true, pure_bind, hB, Except.ok_bind,
      Int.tdiv_eq_ediv h0.le h2.le, Int.tdiv_eq_ediv h1.le h3.le,
      Int.tdiv_eq_ediv h2.le (by norm_num : (0 : Int) ≤ 8),
      Int.tdiv_eq_ediv h3.le (by norm_num : (0 : Int) ≤ 8),
      hBv.repeat_true [bm / wm, bn / wn] false rfl, v1.repeat_false [wm / 8, wn / 8] false rfl]
  · have e3 : wm / 8 * 8 = wm := ediv_mul_eq (by omega)
    have e4 : wn / 8 * 8 = wn := ediv_mul_eq (by omega)
    simp only [List.zipWith_cons_cons, List.zipWith_nil_right, List.cons.injEq, and_true]
    exact ⟨by linear_combination ediv_mul_eq hbm + bm / wm * e3,
      by linear_combination ediv_mul_eq hbn + bn / wn * e4⟩
  · simp [mul_assoc]
  · simp [mul_assoc]

/-- Operand `A` of `makeGemmFragmentA`: the block `[block_m, block_k]`, one replica per warp
column, with replica `r` of element `(m, k)` held by warp `(m % (16 Mw)) / 16 + Mw * r`. -/
theorem makeGemmFragmentA_spec (ldf : Bool) {bm bn bk wm wn : Int}
    (hpos : 0 < bm ∧ 0 < bn ∧ 0 < bk ∧ 0 < wm ∧ 0 < wn) (hbm : bm % wm = 0) (hbn : bn % wn = 0)
    (hwm : wm % 16 = 0) (hbk : bk % 16 = 0) :
    ∃ G, makeGemmFragmentA ldf bm bn bk wm wn = .ok G ∧
      G.ValidAt [bm, bk] [8 * (wm / 16) * (bk / 16)] (32 * (bm / wm) * (bn / wn)) (bn / wn) ∧
      ∀ m k, 0 ≤ m → m < bm → 0 ≤ k → k < bk → ∀ r,
        G.threadAt [m, k] r / 32 = m % (16 * (bm / wm)) / 16 + bm / wm * r := by
  obtain ⟨h0, h1, hk, h2, h3⟩ := hpos
  obtain ⟨B, hB, hBv, -⟩ := makeGemmFragment8x8_spec
  have hMw := tdiv_pos h0 h2 hbm
  have hNw := tdiv_pos h1 h3 hbn
  have hm16 := tdiv_pos h2 (by norm_num) hwm
  have hk16 := tdiv_pos hk (by norm_num) hbk
  have v1 : (B.repeatOnIndex [2, 2] false 2).ValidAt [16, 16] [8] 32 1 :=
    (hBv.repeatOnIndex [2, 2] false rfl (by simp)).of_eq rfl rfl rfl rfl
  have v2 : ((B.repeatOnIndex [2, 2] false 2).repeatOnThread [bm / wm, 1] ldf 32).ValidAt
      [16 * (bm / wm), 16] [8] (32 * (bm / wm)) 1 :=
    (v1.repeatOnThread [bm / wm, 1] ldf rfl (by simp [hMw])).of_eq (by simp) rfl (by simp) rfl
  have v3 := v2.replicateWith (show 1 ≤ bn / wn by omega)
  have v4 := v3.repeatOnIndex [wm / 16, bk / 16] false rfl (by simp [hm16, hk16])
  refine ⟨_, ?_, v4.of_eq ?_ (by simp [mul_assoc]) (by ring) (by simp),
    fun m k hm0 hm1 hk0 hk1 r => ?_⟩
  · simp only [makeGemmFragmentA, icheck, tmod_check h0.le h2.le hbm,
      tmod_check h1.le h3.le hbn, tmod_check h2.le (by norm_num) hwm,
      tmod_check hk.le (by norm_num) hbk, if_true, pure_bind, hB, Except.ok_bind,
      Int.tdiv_eq_ediv h0.le h2.le, Int.tdiv_eq_ediv h1.le h3.le,
      Int.tdiv_eq_ediv h2.le (by norm_num : (0 : Int) ≤ 16),
      Int.tdiv_eq_ediv hk.le (by norm_num : (0 : Int) ≤ 16),
      hBv.repeat_false [2, 2] false rfl, v1.repeat_true [bm / wm, 1] ldf rfl,
      v2.replicate (show 1 ≤ bn / wn by omega), v3.repeat_false [wm / 16, bk / 16] false rfl]
  · simp only [List.zipWith_cons_cons, List.zipWith_nil_right, List.cons.injEq, and_true]
    exact ⟨by linear_combination ediv_mul_eq hbm + bm / wm * ediv_mul_eq hwm,
      by linear_combination ediv_mul_eq hbk⟩
  · have hM : 0 < 16 * (bm / wm) := by omega
    rw [threadAt_repeatOnIndex _ _ _ _ _ (by simp [v3.inputDim_eq]), v3.inputShape_eq]
    simp only [modPoint, List.zipWith_cons_cons, List.zipWith_nil_right]
    rw [threadAt_replicateWith _ _ _ _ (by simp [v2.inputDim_eq]), v2.replicateExtent_eq,
      Int.fmod_one, Int.fdiv_one, threadAt_repeatOnThread _ _ _ _ _ (by simp [v1.inputDim_eq]),
      v1.inputShape_eq, tileIndex_pair ldf v1.inputShape_eq, fdiv_fmod_self k (by norm_num)]
    simp only [modPoint, List.zipWith_cons_cons, List.zipWith_nil_right, mul_zero, add_zero,
      one_mul, zero_add, ite_self]
    rw [show ∀ t q : Int, t + 32 * q + 32 * (bm / wm) * r = t + 32 * (q + bm / wm * r) by
        intros; ring,
      ediv_add_mul_self (v1.threadAt_mem ?_ (by norm_num)), Int.fmod_eq_emod _ hM.le,
      Int.fdiv_eq_ediv _ (by norm_num)]
    simp [shapeBox, fmod_mem _ (by norm_num : (0 : Int) < 16)]

/-- `makeGemmFragmentB` checks neither `block_m % warp_m` nor `block_n % warp_n`: it tiles
`block_n` rounded down to a multiple of `warp_n`.  Replica `r` of element `(k, n)` is held by warp
`r + Mw * ((n % (8 Nw)) / 8)`. -/
theorem makeGemmFragmentB_spec (ldf : Bool) {bm bn bk wm wn : Int}
    (hpos : 0 < bk ∧ 0 < wm ∧ 0 < wn) (hwbm : wm ≤ bm) (hwbn : wn ≤ bn) (hwn : wn % 8 = 0)
    (hbk : bk % 16 = 0) :
    ∃ G, makeGemmFragmentB ldf bm bn bk wm wn = .ok G ∧
      G.ValidAt [bk, bn / wn * wn] [4 * (bk / 16) * (wn / 8)] (32 * (bm / wm) * (bn / wn))
        (bm / wm) ∧
      ∀ k n, 0 ≤ k → k < bk → 0 ≤ n → n < bn / wn * wn → ∀ r,
        G.threadAt [k, n] r / 32 = r + bm / wm * (n % (8 * (bn / wn)) / 8) := by
  obtain ⟨hk, h2, h3⟩ := hpos
  obtain ⟨B, hB, hBv, -⟩ := makeGemmFragment8x8Transposed_spec
  have hMw := one_le_ediv h2 hwbm
  have hNw := one_le_ediv h3 hwbn
  have hk16 := tdiv_pos hk (by norm_num) hbk
  have hn8 := tdiv_pos h3 (by norm_num) hwn
  have v1 : (B.repeatOnIndex [2, 1] false 2).ValidAt [16, 8] [4] 32 1 :=
    (hBv.repeatOnIndex [2, 1] false rfl (by simp)).of_eq rfl rfl rfl rfl
  have v2 : ((B.repeatOnIndex [2, 1] false 2).replicateWith (bm / wm) 32).ValidAt [16, 8] [4]
      (32 * (bm / wm)) (bm / wm) := (v1.replicateWith hMw).of_eq rfl rfl rfl (by simp)
  have v3 : (((B.repeatOnIndex [2, 1] false 2).replicateWith (bm / wm) 32).repeatOnThread
      [1, bn / wn] ldf (32 * (bm / wm))).ValidAt [16, 8 * (bn / wn)] [4]
      (32 * (bm / wm) * (bn / wn)) (bm / wm) :=
    (v2.repeatOnThread [1, bn / wn] ldf rfl (by simp; omega)).of_eq (by simp) rfl (by simp) rfl
  have v4 := v3.repeatOnIndex [bk / 16, wn / 8] true rfl (by simp [hk16, hn8])
  refine ⟨_, ?_, v4.of_eq ?_ (by simp [mul_assoc]) rfl rfl, fun k n hk0 hk1 hn0 hn1 r => ?_⟩
  · simp only [makeGemmFragmentB, icheck, tmod_check h3.le (by norm_num) hwn,
      tmod_check hk.le (by norm_num) hbk, if_true, pure_bind, hB, Except.ok_bind,
      Int.tdiv_eq_ediv (h2.le.trans hwbm) h2.le, Int.tdiv_eq_ediv (h3.le.trans hwbn) h3.le,
      Int.tdiv_eq_ediv h3.le (by norm_num : (0 : Int) ≤ 8),
      Int.tdiv_eq_ediv hk.le (by norm_num : (0 : Int) ≤ 16),
      hBv.repeat_false [2, 1] false rfl, v1.replicate hMw, v2.repeat_true [1, bn / wn] ldf rfl,
      v3.repeat_false [bk / 16, wn / 8] true rfl]
  · simp only [List.zipWith_cons_cons, List.zipWith_nil_right, List.cons.injEq, and_true]
    exact ⟨by linear_combination ediv_mul_eq hbk, by linear_combination bn / wn * ediv_mul_eq hwn⟩
  · have hN : 0 < 8 * (bn / wn) := by omega
    rw [threadAt_repeatOnIndex _ _ _ _ _ (by simp [v3.inputDim_eq]), v3.inputShape_eq]
    simp only [modPoint, List.zipWith_cons_cons, List.zipWith_nil_right]
    rw [threadAt_repeatOnThread _ _ _ _ _ (by simp [v2.inputDim_eq]), v2.inputShape_eq,
      tileIndex_pair ldf v2.inputShape_eq]
    simp only [modPoint, List.zipWith_cons_cons, List.zipWith_nil_right]
    rw [threadAt_replicateWith _ _ _ _ (by simp [v1.inputDim_eq]), v1.replicateExtent_eq,
      Int.fmod_one, Int.fdiv_one, fdiv_fmod_self k (by norm_num)]
    simp only [mul_zero, add_zero, zero_add, one_mul, ite_self]
    rw [show ∀ t q : Int, t + 32 * r + 32 * (bm / wm) * q = t + 32 * (r + bm / wm * q) by
        intros; ring,
      ediv_add_mul_self (v1.threadAt_mem ?_ (by norm_num)), Int.fmod_eq_emod _ hN.le,
      Int.fdiv_eq_ediv _ (by norm_num)]
    simp [shapeBox, fmod_mem _ (by norm_num : (0 : Int) < 16),
      fmod_mem _ (by norm_num : (0 : Int) < 8)]

theorem makeGemmVoltaFragmentC_spec (ldf : Bool) {bm bn wm wn es : Int}
    (hpos : 0 < bm ∧ 0 < bn ∧ 0 < wm ∧ 0 < wn) (hbm : bm % wm = 0) (hbn : bn % wn = 0)
    (hwm : wm % 32 = 0) (hwn : wn % 32 = 0) (hes : es = 16 ∨ es = 32) :
    ∃ G, makeGemmVoltaFragmentC ldf bm bn wm wn es = .ok G ∧
      G.ValidAt [bm, bn] [32 * (wm / 32) * (wn / 32)] (32 * (bm / wm) * (bn / wn)) 1 := by
  obtain ⟨h0, h1, h2, h3⟩ := hpos
  obtain ⟨B, hB, hBv⟩ := makeGemmFragment32x32_spec hes
  have hMw := tdiv_pos h0 h2 hbm
  have hNw := tdiv_pos h1 h3 hbn
  have hm32 := tdiv_pos h2 (by norm_num) hwm
  have hn32 := tdiv_pos h3 (by norm_num) hwn
  have v1 := hBv.repeatOnIndex [wm / 32, wn / 32] false rfl (by simp [hm32, hn32])
  have v2 := v1.repeatOnThread [bm / wm, bn / wn] ldf rfl (by simp [hMw, hNw])
  refine ⟨_, ?_, v2.of_eq ?_ ?_ ?_ rfl⟩
  · simp only [makeGemmVoltaFragmentC, icheck, tmod_check h0.le h2.le hbm,
      tmod_check h1.le h3.le hbn, tmod_check h2.le (by norm_num) hwm,
      tmod_check h3.le (by norm_num) hwn, if_true, pure_bind, hB, Except.ok_bind,
      Int.tdiv_eq_ediv h0.le h2.le, Int.tdiv_eq_ediv h1.le h3.le,
      Int.tdiv_eq_ediv h2.le (by norm_num : (0 : Int) ≤ 32),
      Int.tdiv_eq_ediv h3.le (by norm_num : (0 : Int) ≤ 32),
      hBv.repeat_false [wm / 32, wn / 32] false rfl, v1.repeat_true [bm / wm, bn / wn] ldf rfl]
  · simp only [List.zipWith_cons_cons, List.zipWith_nil_right, List.cons.injEq, and_true]
    exact ⟨by linear_combination ediv_mul_eq hbm + bm / wm * ediv_mul_eq hwm,
      by linear_combination ediv_mul_eq hbn + bn / wn * ediv_mul_eq hwn⟩
  · simp [mul_assoc]
  · simp [mul_assoc]

theorem makeGemmVoltaFragmentA_spec (ldf : Bool) {bm bn bk wm wn : Int}
    (hpos : 0 < bm ∧ 0 < bn ∧ 0 < bk ∧ 0 < wm ∧ 0 < wn) (hbm : bm % wm = 0) (hbn : bn % wn = 0)
    (hwm : wm % 32 = 0) (hbk : bk % 4 = 0) :
    ∃ G, makeGemmVoltaFragmentA ldf bm bn bk wm wn = .ok G ∧
      G.ValidAt [bm, bk] [8 * (wm / 32) * (bk / 4)] (32 * (bm / wm) * (bn / wn))
        (2 * (bn / wn)) := by
  obtain ⟨h0, h1, hk, h2, h3⟩ := hpos
  obtain ⟨B, hB, hBv⟩ := makeGemmVoltaFragmentABase_spec
  have hMw := tdiv_pos h0 h2 hbm
  have hNw := tdiv_pos h1 h3 hbn
  have hm32 := tdiv_pos h2 (by norm_num) hwm
  have hk4 := tdiv_pos hk (by norm_num) hbk
  have v1 := hBv.repeatOnIndex [wm / 32, bk / 4] false rfl (by simp [hm32, hk4])
  have v2 := v1.replicateWith (show 1 ≤ bn / wn by omega)
  have v3 := v2.repeatOnThread [bm / wm, 1] ldf rfl (by simp [hMw])
  refine ⟨_, ?_, v3.of_eq ?_ ?_ ?_ rfl⟩
  · simp only [makeGemmVoltaFragmentA, icheck, tmod_check h0.le h2.le hbm,
      tmod_check h1.le h3.le hbn, tmod_check h2.le (by norm_num) hwm,
      tmod_check hk.le (by norm_num) hbk, if_true, pure_bind, hB, Except.ok_bind,
      Int.tdiv_eq_ediv h0.le h2.le, Int.tdiv_eq_ediv h1.le h3.le,
      Int.tdiv_eq_ediv h2.le (by norm_num : (0 : Int) ≤ 32),
      Int.tdiv_eq_ediv hk.le (by norm_num : (0 : Int) ≤ 4),
      hBv.repeat_false [wm / 32, bk / 4] false rfl, v1.replicate (show 1 ≤ bn / wn by omega),
      v2.repeat_true [bm / wm, 1] ldf rfl]
  · simp only [List.zipWith_cons_cons, List.zipWith_nil_right, List.cons.injEq, and_true]
    exact ⟨by linear_combination ediv_mul_eq hbm + bm / wm * ediv_mul_eq hwm,
      by linear_combination ediv_mul_eq hbk⟩
  · simp [mul_assoc]
  · simp [mul_comm, mul_left_comm]

/-- Every GEMM register-fragment factory returns a valid fragment whose `ThreadExtent()` is
`32 * (block_m / warp_m) * (block_n / warp_n)`.  The accumulator and operand `A` fragments and
both Volta fragments tile exactly the block (`[block_m, block_n]`, `[block_m, block_k]`);
operand `B` tiles `[block_k, block_n]` with `block_n` rounded down to a multiple of `warp_n`. -/
theorem gemm_fragments_validAt (ldf : Bool) {bm bn bk wm wn : Int}
    (hpos : 0 < bm ∧ 0 < bn ∧ 0 < bk ∧ 0 < wm ∧ 0 < wn) :
    (bm % wm = 0 → bn % wn = 0 → wm % 16 = 0 → wn % 16 = 0 → ∀ es, ∃ G L,
      makeGemmFragmentC ldf bm bn wm wn es = .ok G ∧
        G.ValidAt [bm, bn] L (32 * (bm / wm) * (bn / wn)) 1) ∧
    (bm % wm = 0 → bn % wn = 0 → wm % 16 = 0 → bk % 16 = 0 → ∃ G L,
      makeGemmFragmentA ldf bm bn bk wm wn = .ok G ∧
        G.ValidAt [bm, bk] L (32 * (bm / wm) * (bn / wn)) (bn / wn)) ∧
    (wn % 8 = 0 → bk % 16 = 0 → wm ≤ bm → wn ≤ bn → ∃ G L,
      makeGemmFragmentB ldf bm bn bk wm wn = .ok G ∧
        G.ValidAt [bk, bn / wn * wn] L (32 * (bm / wm) * (bn / wn)) (bm / wm)) ∧
    (bm % wm = 0 → bn % wn = 0 → wm % 32 = 0 → wn % 32 = 0 → ∀ es, es = 16 ∨ es = 32 → ∃ G L,
      makeGemmVoltaFragmentC ldf bm bn wm wn es = .ok G ∧
        G.ValidAt [bm, bn] L (32 * (bm / wm) * (bn / wn)) 1) ∧
    (bm % wm = 0 → bn % wn = 0 → wm % 32 = 0 → bk % 4 = 0 → ∃ G L,
      makeGemmVoltaFragmentA ldf bm bn bk wm wn = .ok G ∧
        G.ValidAt [bm, bk] L (32 * (bm / wm) * (bn / wn)) (2 * (bn / wn))) := by
  obtain ⟨h0, h1, hk, h2, h3⟩ := hpos
  refine ⟨fun hbm hbn hwm hwn es => ?_, fun hbm hbn hwm hbk => ?_, fun hwn hbk hwbm hwbn => ?_,
    fun hbm hbn hwm hwn es hes => ?_, fun hbm hbn hwm hbk => ?_⟩
  · by_cases h64 : es = 64
    · obtain ⟨G, hG, hv⟩ := makeGemmFragmentC_F64_spec ⟨h0, h1, h2, h3⟩ hbm hbn hwm hwn
      exact ⟨G, _, by rw [makeGemmFragmentC, if_pos h64, hG], hv⟩
    · obtain ⟨G, hG, hv, -⟩ := makeGemmFragmentC_spec ldf ⟨h0, h1, h2, h3⟩ hbm hbn hwm hwn h64
      exact ⟨G, _, hG, hv⟩
  · obtain ⟨G, hG, hv, -⟩ := makeGemmFragmentA_spec ldf ⟨h0, h1, hk, h2, h3⟩ hbm hbn hwm hbk
    exact ⟨G, _, hG, hv⟩
  · obtain ⟨G, hG, hv, -⟩ := makeGemmFragmentB_spec ldf ⟨hk, h2, h3⟩ hwbm hwbn hwn hbk
    exact ⟨G, _, hG, hv⟩
  · obtain ⟨G, hG, hv⟩ := makeGemmVoltaFragmentC_spec ldf ⟨h0, h1, h2, h3⟩ hbm hbn hwm hwn hes
    exact ⟨G, _, hG, hv⟩
  · obtain ⟨G, hG, hv⟩ := makeGemmVoltaFragmentA_spec ldf ⟨h0, h1, hk, h2, h3⟩ hbm hbn hwm hbk
    exact ⟨G, _, hG, hv⟩

/-- The spec's `64 x 64` block of `32 x 32` warps with `block_k = 32`: every factory returns. -/
theorem gemm_fragments_validAt_64 :
    ((0 : Int) < 64 ∧ (0 : Int) < 64 ∧ (0 : Int) < 32 ∧ (0 : Int) < 32 ∧ (0 : Int) < 32) ∧
      ∃ G L, makeGemmFragmentA true 64 64 32 32 32 = .ok G ∧ G.ValidAt [64, 32] L 128 2 := by
  have hpos : (0 : Int) < 64 ∧ (0 : Int) < 64 ∧ (0 : Int) < 32 ∧ (0 : Int) < 32 ∧ (0 : Int) < 32 := by
    norm_num
  exact ⟨hpos, (gemm_fragments_validAt true hpos).2.1 (by decide) (by decide) (by decide)
    (by decide)⟩

/-- `makeGemmFragmentB` at `block_n = 24`, `warp_n = 16` passes its checks and returns a fragment
over `[16, 16]`: columns `16..23` of the `16 x 24` block tile belong to no thread. -/
theorem makeGemmFragmentB_drops_columns (ldf : Bool) :
    ∃ G, makeGemmFragmentB ldf 16 24 16 16 16 = .ok G ∧ G.inputShape = [16, 16] := by
  obtain ⟨G, hG, hv, -⟩ := @makeGemmFragmentB_spec ldf 16 24 16 16 16 (by norm_num) (by norm_num)
    (by norm_num) (by norm_num) (by norm_num)
  exact ⟨G, hG, hv.inputShape_eq.trans (by norm_num)⟩

/-! ## Warp ownership -/

/-- A block of `b / w` tiles of width `w`, each at least `d` wide, spans at least `d * (b / w)`. -/
theorem tile_count_le {b w d : Int} (hb : b % w = 0) (hw : w % d = 0) (hd : 0 < d) (hwpos : 0 < w)
    (hbpos : 0 < b) : d * (b / w) ≤ b := by
  have h1 : 1 ≤ w / d := tdiv_pos hwpos hd hw
  calc d * (b / w) = b / w * d * 1 := by ring
    _ ≤ b / w * d * (w / d) :=
        Int.mul_le_mul_of_nonneg_left h1 (Int.mul_nonneg (Int.ediv_nonneg hbpos.le hwpos.le) hd.le)
    _ = b / w * (w / d * d) := by ring
    _ = b := by rw [ediv_mul_eq hw, ediv_mul_eq hb]

/-- Over `[0, N)` with `N ≥ d * Q`, the digit `(x % (d * Q)) / d` takes every value of `[0, Q)`. -/
theorem exists_digit_iff {d Q N : Int} (hd : 0 < d) (hQ : 0 < Q) (hN : d * Q ≤ N)
    (P : Int → Prop) : (∃ x, 0 ≤ x ∧ x < N ∧ P (x % (d * Q) / d)) ↔ ∃ q, 0 ≤ q ∧ q < Q ∧ P q := by
  have hdQ : 0 < d * Q := Int.mul_pos hd hQ
  constructor
  · rintro ⟨x, -, -, hx⟩
    exact ⟨_, Int.ediv_nonneg (Int.emod_nonneg _ hdQ.ne') hd.le,
      Int.ediv_lt_of_lt_mul hd (lt_of_lt_of_eq (Int.emod_lt_of_pos x hdQ) (mul_comm d Q)), hx⟩
  · rintro ⟨q, hq0, hq1, hq⟩
    have hlt : d * q < d * Q := Int.mul_lt_mul_of_pos_left hq1 hd
    refine ⟨d * q, Int.mul_nonneg hd.le hq0, lt_of_lt_of_le hlt hN, ?_⟩
    rwa [Int.emod_eq_of_lt (Int.mul_nonneg hd.le hq0) hlt, Int.mul_ediv_cancel_left _ hd.ne']

/-- The Ampere operand fragments agree with the accumulator on warp ownership: the warps that
hold a replica of `A[m][k]` are exactly the warps that hold some `C[m][n']`, and the warps that
hold a replica of `B[k][n]` are exactly those that hold some `C[m'][n]`. -/
theorem gemm_operand_warps_agree (ldf : Bool) {bm bn bk wm wn es : Int}
    (hpos : 0 < bm ∧ 0 < bn ∧ 0 < bk ∧ 0 < wm ∧ 0 < wn) (hbm : bm % wm = 0) (hbn : bn % wn = 0)
    (hwm : wm % 16 = 0) (hwn : wn % 16 = 0) (hbk : bk % 16 = 0) (hes : es ≠ 64) :
    ∃ GC GA GB, makeGemmFragmentC ldf bm bn wm wn es = .ok GC ∧
      makeGemmFragmentA ldf bm bn bk wm wn = .ok GA ∧
      makeGemmFragmentB ldf bm bn bk wm wn = .ok GB ∧
      (∀ m k, 0 ≤ m → m < bm → 0 ≤ k → k < bk →
        {w | ∃ r, 0 ≤ r ∧ r < GA.replicateExtent ∧ w = GA.threadAt [m, k] r / 32} =
          {w | ∃ n, 0 ≤ n ∧ n < bn ∧ w = GC.threadAt [m, n] 0 / 32}) ∧
      (∀ k n, 0 ≤ k → k < bk → 0 ≤ n → n < bn →
        {w | ∃ r, 0 ≤ r ∧ r < GB.replicateExtent ∧ w = GB.threadAt [k, n] r / 32} =
          {w | ∃ m, 0 ≤ m ∧ m < bm ∧ w = GC.threadAt [m, n] 0 / 32}) := by
  obtain ⟨h0, h1, hk, h2, h3⟩ := hpos
  obtain ⟨GC, hC, -, wC⟩ := makeGemmFragmentC_spec ldf ⟨h0, h1, h2, h3⟩ hbm hbn hwm hwn hes
  obtain ⟨GA, hA, vA, wA⟩ := makeGemmFragmentA_spec ldf ⟨h0, h1, hk, h2, h3⟩ hbm hbn hwm hbk
  have ebm := ediv_mul_eq hbm
  have ebn := ediv_mul_eq hbn
  obtain ⟨GB, hB, vB, wB⟩ := makeGemmFragmentB_spec ldf ⟨hk, h2, h3⟩
    (Int.le_of_dvd h0 (Int.dvd_of_emod_eq_zero hbm)) (Int.le_of_dvd h1 (Int.dvd_of_emod_eq_zero hbn))
    (by omega) hbk
  have hMw := tdiv_pos h0 h2 hbm
  have hNw := tdiv_pos h1 h3 hbn
  have hMb := tile_count_le hbm hwm (by norm_num) h2 h0
  have hNb := tile_count_le hbn (show wn % 8 = 0 by omega) (by norm_num) h3 h1
  refine ⟨GC, GA, GB, hC, hA, hB, fun m k hm0 hm1 hk0 hk1 => ?_, fun k n hk0 hk1 hn0 hn1 => ?_⟩
  · ext w
    simp only [Set.mem_setOf_eq, vA.replicateExtent_eq, wA m k hm0 hm1 hk0 hk1]
    rw [← exists_digit_iff (by norm_num) hNw hNb (fun q => w = _ + bm / wm * q)]
    constructor <;> rintro ⟨n, hn0, hn1, hw⟩ <;> exact ⟨n, hn0, hn1, by rwa [wC m n hm0 hm1 hn0 hn1] at *⟩
  · ext w
    simp only [Set.mem_setOf_eq, vB.replicateExtent_eq, wB k n hk0 hk1 hn0 (by rwa [ebn])]
    rw [← exists_digit_iff (by norm_num) hMw hMb (fun q => w = q + bm / wm * _)]
    constructor <;> rintro ⟨m, hm0, hm1, hw⟩ <;> exact ⟨m, hm0, hm1, by rwa [wC m n hm0 hm1 hn0 hn1] at *⟩

/-- The spec's `64 x 64 x 32` tiling with `32 x 32` warps: row `0` of `A` is held by the warps of
row `0` of the accumulator. -/
theorem gemm_operand_warps_agree_64 :
    ((0 : Int) < 64 ∧ (0 : Int) < 64 ∧ (0 : Int) < 32 ∧ (0 : Int) < 32 ∧ (0 : Int) < 32) ∧
      ∃ GC GA, makeGemmFragmentC false 64 64 32 32 16 = .ok GC ∧
        makeGemmFragmentA false 64 64 32 32 32 = .ok GA ∧
        {w | ∃ r, 0 ≤ r ∧ r < GA.replicateExtent ∧ w = GA.threadAt [0, 0] r / 32} =
          {w | ∃ n, 0 ≤ n ∧ n < 64 ∧ w = GC.threadAt [0, n] 0 / 32} := by
  have hpos : (0 : Int) < 64 ∧ (0 : Int) < 64 ∧ (0 : Int) < 32 ∧ (0 : Int) < 32 ∧ (0 : Int) < 32 := by
    norm_num
  obtain ⟨GC, GA, -, hC, hA, -, hAC, -⟩ := gemm_operand_warps_agree false hpos (by decide)
    (by decide) (by decide) (by decide) (by decide) (show (16 : Int) ≠ 64 by decide)
  exact ⟨hpos, GC, GA, hC, hA, hAC 0 0 le_rfl (by norm_num) le_rfl (by norm_num)⟩

end TileLayout
