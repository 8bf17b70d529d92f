import TileLayout.Valid
import Mathlib.Data.Nat.Bitwise
import Mathlib.Algebra.Order.Ring.Int
/-!
# Shared-memory layouts

The layouts of the `A` and `B` operand tiles in shared memory.  Rows are `i ∈ [0, stride)` and
columns `j ∈ [0, continuous)` (inputs `var 0` and `var 1`).  The swizzled layouts cut a column
into vectors of `128` bits and permute the vectors of each row by an XOR with bits of the row,
built from `xor2x2`; the padded layout adds `128` bits at the end of each row instead.
`makeGemmABLayout` and `makeGemmVoltaABLayout` choose among them.  Parameters are C++ `int`s:
`/` and `%` truncate.
-/

namespace TileLayout

/-- `make_itervar` over rows and columns. -/
def rowColVars (stride continuous : Int) : List Range :=
  [Range.ofExtent stride, Range.ofExtent continuous]

/-- `xor2x2(i, j) = FloorMod(i + j, 2)`. -/
def xor2x2 (i j : PrimExpr) : PrimExpr := .floorMod (.add i j) (.int 2)

/-- `xor4x4`: the low bits XORed by `xor2x2`, then the high bits. -/
def xor4x4 (i j : PrimExpr) : PrimExpr :=
  .add (.mul (.int 2) (xor2x2 (.floorDiv i (.int 2)) (.floorDiv j (.int 2))))
    (xor2x2 (.floorMod i (.int 2)) (.floorMod j (.int 2)))

/-- `xor8x8`: the low bit by `xor2x2`, the two high bits by `xor4x4`. -/
def xor8x8 (i j : PrimExpr) : PrimExpr :=
  .add (.mul (.int 2) (xor4x4 (.floorDiv i (.int 2)) (.floorDiv j (.int 2))))
    (xor2x2 (.floorMod i (.int 2)) (.floorMod j (.int 2)))

/-- `makeGemmABLayoutHalfBank`: a 2-bit swizzle of the four vectors of each row group. -/
def makeGemmABLayoutHalfBank (stride continuous elementSize : Int) : Except String Layout := do
  let vectorSize := (128 : Int).tdiv elementSize
  icheck (stride.tmod 8 == 0) "stride % 8 == 0"
  icheck (continuous.tmod (vectorSize * 4) == 0) "continuous % (vector_size * 4) == 0"
  let i : PrimExpr := .var 0
  let j : PrimExpr := .var 1
  let ts := PrimExpr.floorDiv i (.int 8)
  let s := PrimExpr.floorMod i (.int 8)
  let tc := PrimExpr.floorDiv (.floorDiv j (.int vectorSize)) (.int 4)
  let c := PrimExpr.floorMod (.floorDiv j (.int vectorSize)) (.int 4)
  let vec := PrimExpr.floorMod j (.int vectorSize)
  let cSwizzle := xor4x4 c (.floorDiv s (.int 2))
  let index := PrimExpr.add vec (.mul (.add cSwizzle (.mul s (.int 4))) (.int vectorSize))
  pure ⟨rowColVars stride continuous, [tc, ts, index]⟩

/-- `makeGemmABLayoutFullBank`: a 3-bit swizzle of the eight vectors of each row group. -/
def makeGemmABLayoutFullBank (stride continuous elementSize : Int) : Except String Layout := do
  let vectorSize := (128 : Int).tdiv elementSize
  icheck (stride.tmod 8 == 0) "stride % 8 == 0"
  icheck (continuous.tmod (vectorSize * 8) == 0) "continuous % (vector_size * 8) == 0"
  let i : PrimExpr := .var 0
  let j : PrimExpr := .var 1
  let ts := PrimExpr.floorDiv i (.int 8)
  let s := PrimExpr.floorMod i (.int 8)
  let tc := PrimExpr.floorDiv (.floorDiv j (.int vectorSize)) (.int 8)
  let c := PrimExpr.floorMod (.floorDiv j (.int vectorSize)) (.int 8)
  let vec := PrimExpr.floorMod j (.int vectorSize)
  let cSwizzle := xor8x8 c s
  let index := PrimExpr.add vec (.mul (.add cSwizzle (.mul s (.int 8))) (.int vectorSize))
  pure ⟨rowColVars stride continuous, [tc, ts, index]⟩

/-- `makeGemmABLayoutF64_Kinner`: `Swizzle<2, 0, 4>` on tiles of `4 × 16` doubles. -/
def makeGemmABLayoutF64Kinner (stride continuous : Int) : Layout :=
  let i : PrimExpr := .var 0
  let j : PrimExpr := .var 1
  let tc := PrimExpr.floorDiv j (.int 16)
  let ts := PrimExpr.floorDiv i (.int 4)
  let c := PrimExpr.floorMod j (.int 16)
  let s := PrimExpr.floorMod i (.int 4)
  let swizzledC := PrimExpr.add (.mul (.floorDiv c (.int 4)) (.int 4)) (xor4x4 (.floorMod c (.int 4)) s)
  let index := PrimExpr.add swizzledC (.mul s (.int 16))
  ⟨rowColVars stride continuous, [tc, ts, index]⟩

/-- `makeGemmABLayoutF64_Kouter`: `Swizzle<2, 2, 2>` on tiles of `4 × 16` doubles. -/
def makeGemmABLayoutF64Kouter (stride continuous : Int) : Layout :=
  let i : PrimExpr := .var 0
  let j : PrimExpr := .var 1
  let tc := PrimExpr.floorDiv j (.int 16)
  let ts := PrimExpr.floorDiv i (.int 4)
  let c := PrimExpr.floorMod j (.int 16)
  let s := PrimExpr.floorMod i (.int 4)
  let swizzledC := PrimExpr.add (.floorMod c (.int 4)) (.mul (xor4x4 (.floorDiv c (.int 4)) s) (.int 4))
  let index := PrimExpr.add swizzledC (.mul s (.int 16))
  ⟨rowColVars stride continuous, [tc, ts, index]⟩

/-- `makeGemmABLayoutPadded`: row-major, each row padded by `128` bits when it is a multiple of
`256` bits long. -/
def makeGemmABLayoutPadded (stride continuous elementSize : Int) : Layout :=
  let padded := if (elementSize * continuous).tmod 256 == 0
    then continuous + (128 : Int).tdiv elementSize else continuous
  ⟨rowColVars stride continuous, [.add (.mul (.var 0) (.int padded)) (.var 1)]⟩

/-- `MakeGemmVoltaABLayoutCrosswise`. -/
def makeGemmVoltaABLayoutCrosswise (stride continuous : Int) : Except String Layout := do
  icheck (stride.tmod 32 == 0 && continuous.tmod 32 == 0)
    "stride % 32 == 0 && continuous % 32 == 0"
  let i : PrimExpr := .var 0
  let j : PrimExpr := .var 1
  let vecContiguousIdx := PrimExpr.floorDiv j (.int 4)
  let vecStridedWithinTile := PrimExpr.floorMod vecContiguousIdx (.int 8)
  let bit2 := PrimExpr.floorMod
    (.add (.add (.floorDiv (.floorMod i (.int 32)) (.int 16)) (.floorDiv (.floorMod i (.int 16)) (.int 8)))
      (.floorDiv vecStridedWithinTile (.int 4))) (.int 2)
  let bit1 := xor2x2 (.floorDiv (.floorMod i (.int 8)) (.int 4))
    (.floorDiv (.floorMod vecStridedWithinTile (.int 4)) (.int 2))
  let permutedVecContiguous := PrimExpr.add (.add (.add (.mul (.floorDiv i (.int 16)) (.int 16))
    (.mul (.floorMod i (.int 4)) (.int 4))) (.mul bit2 (.int 2))) bit1
  let offset := PrimExpr.add (.add (.floorMod j (.int 4)) (.mul permutedVecContiguous (.int 4)))
    (.mul (.mul vecContiguousIdx (.int stride)) (.int 4))
  pure ⟨rowColVars stride continuous, [offset]⟩

/-- The part `MakeGemmVoltaALayoutCongruous` and `MakeGemmVoltaBLayoutCongruous` share: a tile of
`4` rows by `8` vectors of `8` elements, the vector's position in the tile split into a strided
and a contiguous part, and the contiguous part XORed with the row. -/
def voltaCongruousLayout (permutedStrided permutedContiguousHigh : PrimExpr → PrimExpr)
    (stride continuous : Int) : Except String Layout := do
  icheck (stride.tmod 4 == 0 && continuous.tmod 64 == 0) "stride % 4 == 0 && continuous % 64 == 0"
  let i : PrimExpr := .var 0
  let j : PrimExpr := .var 1
  let vecContiguousIdx := PrimExpr.floorDiv j (.int 8)
  let vecStridedIdx := i
  let tileContiguousIdx := PrimExpr.floorDiv vecContiguousIdx (.int 8)
  let tileStridedIdx := PrimExpr.floorDiv vecStridedIdx (.int 4)
  let tileContiguousResidual := PrimExpr.floorMod vecContiguousIdx (.int 8)
  let tileStridedResidual := PrimExpr.floorMod vecStridedIdx (.int 4)
  let permutedStridedWithinTile := permutedStrided tileContiguousResidual
  let permutedContiguousWithinTile := PrimExpr.add (permutedContiguousHigh tileContiguousResidual)
    (xor4x4 tileStridedResidual permutedStridedWithinTile)
  let elementStrided := PrimExpr.add permutedStridedWithinTile (.mul tileStridedIdx (.int 4))
  let elementContiguous := PrimExpr.add (.floorMod j (.int 8))
    (.mul (.add permutedContiguousWithinTile (.mul tileContiguousIdx (.int 8))) (.int 8))
  let offset := PrimExpr.add (.mul elementStrided (.int continuous)) elementContiguous
  pure ⟨rowColVars stride continuous, [offset]⟩

/-- `MakeGemmVoltaALayoutCongruous`: the vector's tile residual `r` gives the strided position
`r / 2` and the contiguous high bit `(r % 2) * 4`. -/
def makeGemmVoltaALayoutCongruous (stride continuous : Int) : Except String Layout :=
  voltaCongruousLayout (fun r => .floorDiv r (.int 2)) (fun r => .mul (.floorMod r (.int 2)) (.int 4))
    stride continuous

/-- `MakeGemmVoltaBLayoutCongruous`: the strided position is `r % 4` and the contiguous high bit
`(r / 4) * 4`. -/
def makeGemmVoltaBLayoutCongruous (stride continuous : Int) : Except String Layout :=
  voltaCongruousLayout (fun r => .floorMod r (.int 4)) (fun r => .mul (.floorDiv r (.int 4)) (.int 4))
    stride continuous

/-- `makeGemmVoltaABLayout`. -/
def makeGemmVoltaABLayout (stride continuous : Int) (isA : Bool) (kfactor : Int) :
    Except String Layout :=
  if kfactor = 2 then makeGemmVoltaABLayoutCrosswise stride continuous
  else if isA && continuous.tmod 64 == 0 then makeGemmVoltaALayoutCongruous stride continuous
  else if !isA && continuous.tmod 64 == 0 then makeGemmVoltaBLayoutCongruous stride continuous
  else pure (makeGemmABLayoutPadded stride continuous 16)

/-- `makeGemmABLayout`: for doubles the two `F64` swizzles when the row holds whole tiles of `16`,
otherwise the bank swizzle of the widest vector group that divides the row, else padding. -/
def makeGemmABLayout (stride continuous elementSize kfactor : Int) : Except String Layout :=
  if elementSize = 64 then
    if kfactor == 1 && continuous.tmod 16 == 0 then pure (makeGemmABLayoutF64Kouter stride continuous)
    else if kfactor == 2 && continuous.tmod 16 == 0 then
      pure (makeGemmABLayoutF64Kinner stride continuous)
    else pure (makeGemmABLayoutPadded stride continuous elementSize)
  else
    let vectorSize := (128 : Int).tdiv elementSize
    if kfactor == 1 && elementSize == 8 then pure (makeGemmABLayoutPadded stride continuous elementSize)
    else if continuous.tmod (vectorSize * 8) == 0 then
      makeGemmABLayoutFullBank stride continuous elementSize
    else if continuous.tmod (vectorSize * 4) == 0 then
      makeGemmABLayoutHalfBank stride continuous elementSize
    else pure (makeGemmABLayoutPadded stride continuous elementSize)

/-! ## Swizzle arithmetic -/

theorem xor4x4_table : ∀ a : Nat, a < 4 → ∀ b : Nat, b < 4 →
    2 * Int.fmod (Int.fdiv a 2 + Int.fdiv b 2) 2 + Int.fmod (Int.fmod a 2 + Int.fmod b 2) 2 =
      ((a ^^^ b : Nat) : Int) := by
  decide

theorem xor8x8_table : ∀ a : Nat, a < 8 → ∀ b : Nat, b < 8 →
    2 * (2 * Int.fmod (Int.fdiv (Int.fdiv a 2) 2 + Int.fdiv (Int.fdiv b 2) 2) 2 +
      Int.fmod (Int.fmod (Int.fdiv a 2) 2 + Int.fmod (Int.fdiv b 2) 2) 2) +
        Int.fmod (Int.fmod a 2 + Int.fmod b 2) 2 = ((a ^^^ b : Nat) : Int) := by
  decide

@[simp] theorem valueAt_xor2x2 (a b : PrimExpr) (x : List Int) :
    (xor2x2 a b).valueAt x = (a.valueAt x + b.valueAt x) % 2 :=
  Int.fmod_eq_emod _ (show (0 : Int) ≤ 2 by decide)

/-- On arguments in `[0, 4)`, `xor4x4` is the bitwise XOR. -/
theorem valueAt_xor4x4 (a b : PrimExpr) (x : List Int) (ha : 0 ≤ a.valueAt x ∧ a.valueAt x < 4)
    (hb : 0 ≤ b.valueAt x ∧ b.valueAt x < 4) :
    (xor4x4 a b).valueAt x = ((a.valueAt x).toNat ^^^ (b.valueAt x).toNat : Nat) := by
  have := xor4x4_table (a.valueAt x).toNat (by omega) (b.valueAt x).toNat (by omega)
  rw [Int.toNat_of_nonneg ha.1, Int.toNat_of_nonneg hb.1] at this
  simpa [xor4x4, xor2x2] using this

/-- On arguments in `[0, 8)`, `xor8x8` is the bitwise XOR. -/
theorem valueAt_xor8x8 (a b : PrimExpr) (x : List Int) (ha : 0 ≤ a.valueAt x ∧ a.valueAt x < 8)
    (hb : 0 ≤ b.valueAt x ∧ b.valueAt x < 8) :
    (xor8x8 a b).valueAt x = ((a.valueAt x).toNat ^^^ (b.valueAt x).toNat : Nat) := by
  have := xor8x8_table (a.valueAt x).toNat (by omega) (b.valueAt x).toNat (by omega)
  rw [Int.toNat_of_nonneg ha.1, Int.toNat_of_nonneg hb.1] at this
  simpa [xor8x8, xor4x4, xor2x2] using this

theorem xor_lt_two_pow {c s : Int} {n : Nat} (hc : c < 2 ^ n) (hs : s < 2 ^ n) :
    ((c.toNat ^^^ s.toNat : Nat) : Int) < 2 ^ n := by
  have hpow : (2 : Nat) ^ n ≠ 0 := (Nat.two_pow_pos n).ne'
  exact_mod_cast @Nat.xor_lt_two_pow c.toNat s.toNat n ((Int.toNat_lt' hpow).2 (by exact_mod_cast hc))
    ((Int.toNat_lt' hpow).2 (by exact_mod_cast hs))

/-- XOR with the same bits is injective: the swizzled position gives back the unswizzled one. -/
theorem eq_of_xor_eq {c c' s s' : Int} (hc : 0 ≤ c) (hc' : 0 ≤ c') (hs : s = s')
    (h : ((c.toNat ^^^ s.toNat : Nat) : Int) = ((c'.toNat ^^^ s'.toNat : Nat) : Int)) : c = c' := by
  subst hs
  have := Nat.xor_left_injective (Nat.cast_injective h)
  omega

/-- `Swizzle<2, 2, 2>` on the place `c ∈ [0, 16)` of a column in its tile: the two high bits of
`c` are XORed with the row `s ∈ [0, 4)`. -/
def swizzle222 (c s : Int) : Int := c % 4 + 4 * (((c / 4).toNat ^^^ s.toNat : Nat) : Int)

/-- `Swizzle<2, 0, 4>`: the two low bits of `c` are XORed with the row `s`. -/
def swizzle204 (c s : Int) : Int := 4 * (c / 4) + (((c % 4).toNat ^^^ s.toNat : Nat) : Int)

section TileSwizzle

variable {c c' s : Int}

theorem swizzle222_mem (hc : 0 ≤ c ∧ c < 16) (hs : 0 ≤ s ∧ s < 4) :
    0 ≤ swizzle222 c s ∧ swizzle222 c s < 16 := by
  have := xor_lt_two_pow (show c / 4 < 2 ^ 2 by omega) (show s < 2 ^ 2 by omega)
  unfold swizzle222
  omega

theorem swizzle222_inj (hc : 0 ≤ c ∧ c < 16) (hc' : 0 ≤ c' ∧ c' < 16) (hs : 0 ≤ s ∧ s < 4)
    (h : swizzle222 c s = swizzle222 c' s) : c = c' := by
  have key : s = s → _ = _ → c / 4 = c' / 4 := eq_of_xor_eq (by omega) (by omega)
  have := xor_lt_two_pow (show c / 4 < 2 ^ 2 by omega) (show s < 2 ^ 2 by omega)
  have := xor_lt_two_pow (show c' / 4 < 2 ^ 2 by omega) (show s < 2 ^ 2 by omega)
  unfold swizzle222 at h
  omega

theorem swizzle204_mem (hc : 0 ≤ c ∧ c < 16) (hs : 0 ≤ s ∧ s < 4) :
    0 ≤ swizzle204 c s ∧ swizzle204 c s < 16 := by
  have := xor_lt_two_pow (show c % 4 < 2 ^ 2 by omega) (show s < 2 ^ 2 by omega)
  unfold swizzle204
  omega

theorem swizzle204_inj (hs : 0 ≤ s ∧ s < 4) (h : swizzle204 c s = swizzle204 c' s) : c = c' := by
  have key : s = s → _ = _ → c % 4 = c' % 4 := eq_of_xor_eq (by omega) (by omega)
  have := xor_lt_two_pow (show c % 4 < 2 ^ 2 by omega) (show s < 2 ^ 2 by omega)
  have := xor_lt_two_pow (show c' % 4 < 2 ^ 2 by omega) (show s < 2 ^ 2 by omega)
  unfold swizzle204 at h
  omega

end TileSwizzle

/-! ## Digits -/

theorem vecDigit_bounds {vs : Int} (hvs : 0 < vs) (j : Int) {a n : Int} (ha : 0 ≤ a ∧ a < n) :
    0 ≤ j % vs + vs * a ∧ j % vs + vs * a < vs * n :=
  add_mul_bounds (emod_mem j hvs) ha

theorem eq_of_vecDigit_eq {vs : Int} (hvs : 0 < vs) {j j' a a' : Int}
    (h : j % vs + vs * a = j' % vs + vs * a') : j % vs = j' % vs ∧ a = a' :=
  eq_of_add_mul_eq (emod_mem j hvs) (emod_mem j' hvs) h

/-! ## Layouts over rows and columns -/

theorem inBox_rowColVars {a b : Int} {p : List Int} :
    InBox (rowColVars a b) p ↔ ∃ i j, p = [i, j] ∧ (0 ≤ i ∧ i < a) ∧ (0 ≤ j ∧ j < b) := by
  match p with
  | [i, j] => simp [rowColVars, and_assoc]
  | [] | [_] | _ :: _ :: _ :: _ => simp [rowColVars]

@[simp] theorem inBox_rowColVars_pair {a b i j : Int} :
    InBox (rowColVars a b) [i, j] ↔ (0 ≤ i ∧ i < a) ∧ (0 ≤ j ∧ j < b) := by
  simp [rowColVars]

theorem exists_forall₂_of_forall {α β : Type} {R : α → β → Prop} {l : List α}
    (h : ∀ a ∈ l, ∃ b, R a b) : ∃ r, List.Forall₂ R l r := by
  induction l with
  | nil => exact ⟨[], .nil⟩
  | cons a l ih =>
      obtain ⟨b, hb⟩ := h a (List.mem_cons_self a l)
      obtain ⟨r, hr⟩ := ih fun a' ha' => h a' (List.mem_cons_of_mem a ha')
      exact ⟨b :: r, .cons hb hr⟩

namespace Layout

/-- What the shared-memory layouts promise: `OutputShape()` succeeds, the forward map sends the
input box into `Prod [0, OutputShape())`, and no two elements share an output. -/
def Injective (l : Layout) : Prop :=
  ∃ S, l.outputShape = .ok S ∧ Set.MapsTo l.apply (boxSet l.forwardVar) (boxSet (shapeBox S)) ∧
    Set.InjOn l.apply (boxSet l.forwardVar)

theorem Valid.injective {l : Layout} (h : l.Valid) : l.Injective :=
  let ⟨_, S, hS, hbij⟩ := h
  ⟨S, hS, hbij.1, hbij.2.1⟩

/-- `OutputShape()` succeeds when every output is `0` at one point of the box and never negative
on it. -/
theorem exists_outputShape {l : Layout} {x₀ : List Int} (hx₀ : InBox l.forwardVar x₀)
    (h0 : ∀ v ∈ l.apply x₀, v = 0) (hnn : ∀ x, InBox l.forwardVar x → ∀ v ∈ l.apply x, 0 ≤ v) :
    ∃ S, l.outputShape = .ok S := by
  have hext : ∀ e ∈ l.forwardIndex, ∃ s, outputExtent l.forwardVar e = .ok s := fun e he => by
    obtain ⟨lo, hi, hset⟩ := exists_intSet_eq_some e hx₀
    obtain ⟨-, ⟨x, hx, hhi⟩, hb⟩ := intSet_eq_some.1 hset
    exact ⟨hi + 1, outputExtent_eq_ok_iff.2 ⟨⟨x₀, hx₀, h0 _ (List.mem_map_of_mem _ he)⟩,
      ⟨x, hx, by omega⟩, fun y hy => ⟨hnn y hy _ (List.mem_map_of_mem _ he), by
        have := (hb y hy).2; omega⟩⟩⟩
  obtain ⟨S, hS⟩ := exists_forall₂_of_forall hext
  exact ⟨S, outputShape_eq_ok_iff.2 hS⟩

theorem injective_of_injOn {l : Layout} {x₀ : List Int} (hx₀ : InBox l.forwardVar x₀)
    (h0 : ∀ v ∈ l.apply x₀, v = 0) (hnn : ∀ x, InBox l.forwardVar x → ∀ v ∈ l.apply x, 0 ≤ v)
    (hinj : Set.InjOn l.apply (boxSet l.forwardVar)) : l.Injective :=
  let ⟨S, hS⟩ := exists_outputShape hx₀ h0 hnn
  ⟨S, hS, mapsTo_of_outputShape hS, hinj⟩

end Layout

section RowCol

variable {l : Layout} {a b : Int}

/-- A layout over rows and columns is injective when its value determines the row and the
column. -/
theorem injOn_of_arith (hvars : l.forwardVar = rowColVars a b)
    (hinj : ∀ i j i' j', (0 ≤ i ∧ i < a) → (0 ≤ j ∧ j < b) → (0 ≤ i' ∧ i' < a) →
      (0 ≤ j' ∧ j' < b) → l.apply [i, j] = l.apply [i', j'] → i = i' ∧ j = j') :
    Set.InjOn l.apply (boxSet l.forwardVar) := by
  rintro p hp p' hp' h
  simp only [boxSet, hvars, Set.mem_setOf_eq, inBox_rowColVars] at hp hp'
  obtain ⟨i, j, rfl, hi, hj⟩ := hp
  obtain ⟨i', j', rfl, hi', hj'⟩ := hp'
  obtain ⟨rfl, rfl⟩ := hinj i j i' j' hi hj hi' hj' h
  rfl

/-- A layout over rows and columns that is `0` at the origin, nonnegative on its box, and
injective there is `Injective`. -/
theorem injective_of_arith (hvars : l.forwardVar = rowColVars a b) (ha : 0 < a) (hb : 0 < b)
    (h0 : ∀ v ∈ l.apply [0, 0], v = 0)
    (hnn : ∀ i j, (0 ≤ i ∧ i < a) → (0 ≤ j ∧ j < b) → ∀ v ∈ l.apply [i, j], 0 ≤ v)
    (hinj : ∀ i j i' j', (0 ≤ i ∧ i < a) → (0 ≤ j ∧ j < b) → (0 ≤ i' ∧ i' < a) →
      (0 ≤ j' ∧ j' < b) → l.apply [i, j] = l.apply [i', j'] → i = i' ∧ j = j') : l.Injective := by
  refine Layout.injective_of_injOn (by simp [hvars, ha, hb]) h0 (fun x hx => ?_) (injOn_of_arith hvars hinj)
  simp only [hvars, inBox_rowColVars] at hx
  obtain ⟨i, j, rfl, hi, hj⟩ := hx
  exact hnn i j hi hj

/-- A layout over rows and columns is valid with output box `S` when its values land in `S`,
determine the point, and `S` has as many slots as the box has points. -/
theorem valid_of_arith {S : List Int} (hvars : l.forwardVar = rowColVars a b) (ha : 0 ≤ a)
    (hb : 0 ≤ b) (hS : ∀ s ∈ S, 0 < s)
    (hmaps : ∀ i j, (0 ≤ i ∧ i < a) → (0 ≤ j ∧ j < b) → InBox (shapeBox S) (l.apply [i, j]))
    (hinj : ∀ i j i' j', (0 ≤ i ∧ i < a) → (0 ≤ j ∧ j < b) → (0 ≤ i' ∧ i' < a) →
      (0 ≤ j' ∧ j' < b) → l.apply [i, j] = l.apply [i', j'] → i = i' ∧ j = j')
    (hcard : S.prod = a * b) : l.Valid ∧ l.outputShape = .ok S := by
  have hbij : Set.BijOn l.apply (boxSet l.forwardVar) (boxSet (shapeBox S)) := by
    refine bijOn_of_injOn (fun p hp => ?_) (injOn_of_arith hvars hinj) ?_
    · simp only [boxSet, hvars, Set.mem_setOf_eq, inBox_rowColVars] at hp
      obtain ⟨i, j, rfl, hi, hj⟩ := hp
      exact hmaps i j hi hj
    · rw [hvars]
      exact boxCard_shapeBox_le (fun s hs => (hS s hs).le)
        (by simp [rowColVars, Range.ofExtent, ha, hb]) (by simp [rowColVars, Range.ofExtent, hcard])
  have hshape := Layout.outputShape_eq_of_bijOn hS hbij
  exact ⟨⟨by simp [hvars, rowColVars, Range.ofExtent], S, hshape, hbij⟩, hshape⟩

end RowCol

/-! ## Swizzled tiles

The swizzled layouts share one shape: a row of columns is cut into vectors of `vs` elements and
the vectors into groups of `g`, the rows into groups of `r`; the output is the group of columns,
the group of rows, and the place in the tile, where the vector's place `c` in its group is
permuted by `X c s` with the row `s` in its group. -/

section Swizzle

variable {l : Layout} {vs g r : Int} (X : Int → Int → Int)

/-- The output of a swizzled tile layout determines the row and the column, when `X · s` is
injective on `[0, g)`. -/
theorem eq_of_swizzle_eq (hvs : 0 < vs) (hg : 0 < g) (hr : 0 < r)
    (happ : ∀ i j, l.apply [i, j] =
      [j / vs / g, i / r, j % vs + vs * (X (j / vs % g) (i % r) + g * (i % r))])
    (hX : ∀ c s, (0 ≤ c ∧ c < g) → (0 ≤ s ∧ s < r) → 0 ≤ X c s ∧ X c s < g)
    (hXinj : ∀ c c' s, (0 ≤ c ∧ c < g) → (0 ≤ c' ∧ c' < g) → (0 ≤ s ∧ s < r) →
      X c s = X c' s → c = c')
    {i j i' j' : Int} (h : l.apply [i, j] = l.apply [i', j']) : i = i' ∧ j = j' := by
  rw [happ, happ] at h
  simp only [List.cons.injEq, and_true] at h
  obtain ⟨hq, hi8, hidx⟩ := h
  obtain ⟨hv, hidx⟩ := eq_of_vecDigit_eq hvs hidx
  obtain ⟨hX8, hs8⟩ := eq_of_add_mul_eq (hX _ _ (emod_mem (j / vs) hg) (emod_mem i hr))
    (hX _ _ (emod_mem (j' / vs) hg) (emod_mem i' hr)) hidx
  rw [← hs8] at hX8
  have hc := hXinj _ _ _ (emod_mem (j / vs) hg) (emod_mem (j' / vs) hg) (emod_mem i hr) hX8
  exact ⟨eq_of_ediv_emod_eq hi8 hs8, eq_of_ediv_emod_eq (eq_of_ediv_emod_eq hq hc) hv⟩

/-- A swizzled tile layout on any box of positive extents is `Injective`. -/
theorem injective_of_swizzle {a b : Int} (hvars : l.forwardVar = rowColVars a b) (ha : 0 < a)
    (hb : 0 < b) (hvs : 0 < vs) (hg : 0 < g) (hr : 0 < r)
    (happ : ∀ i j, l.apply [i, j] =
      [j / vs / g, i / r, j % vs + vs * (X (j / vs % g) (i % r) + g * (i % r))])
    (hX : ∀ c s, (0 ≤ c ∧ c < g) → (0 ≤ s ∧ s < r) → 0 ≤ X c s ∧ X c s < g)
    (hXinj : ∀ c c' s, (0 ≤ c ∧ c < g) → (0 ≤ c' ∧ c' < g) → (0 ≤ s ∧ s < r) →
      X c s = X c' s → c = c')
    (hX0 : X 0 0 = 0) : l.Injective := by
  refine injective_of_arith hvars ha hb (by simp [happ, hX0]) (fun i j hi hj => ?_)
    (fun _ _ _ _ _ _ _ _ h => eq_of_swizzle_eq X hvs hg hr happ hX hXinj h)
  have hidx := vecDigit_bounds hvs j (add_mul_bounds (hX _ _ (emod_mem (j / vs) hg) (emod_mem i hr))
    (emod_mem i hr))
  simp only [happ, List.mem_cons, List.mem_singleton, List.not_mem_nil, or_false]
  rintro v (rfl | rfl | rfl)
  · exact Int.ediv_nonneg (Int.ediv_nonneg hj.1 hvs.le) hg.le
  · exact Int.ediv_nonneg hi.1 hr.le
  · exact hidx.1

/-- A swizzled tile layout over whole tiles, `r * m` rows and `vs * g * k` columns, is a bijection
onto `[0, k) × [0, m) × [0, vs * (g * r))`. -/
theorem valid_of_swizzle {m k : Int} (hvars : l.forwardVar = rowColVars (r * m) (vs * g * k))
    (hvs : 0 < vs) (hg : 0 < g) (hr : 0 < r) (hm : 0 < m) (hk : 0 < k)
    (happ : ∀ i j, l.apply [i, j] =
      [j / vs / g, i / r, j % vs + vs * (X (j / vs % g) (i % r) + g * (i % r))])
    (hX : ∀ c s, (0 ≤ c ∧ c < g) → (0 ≤ s ∧ s < r) → 0 ≤ X c s ∧ X c s < g)
    (hXinj : ∀ c c' s, (0 ≤ c ∧ c < g) → (0 ≤ c' ∧ c' < g) → (0 ≤ s ∧ s < r) →
      X c s = X c' s → c = c') :
    l.Valid ∧ l.outputShape = .ok [k, m, vs * (g * r)] := by
  refine valid_of_arith hvars (Int.mul_nonneg hr.le hm.le)
    (Int.mul_nonneg (Int.mul_nonneg hvs.le hg.le) hk.le)
    (by simp [hk, hm, Int.mul_pos hvs (Int.mul_pos hg hr)]) (fun i j hi hj => ?_)
    (fun _ _ _ _ _ _ _ _ h => eq_of_swizzle_eq X hvs hg hr happ hX hXinj h) (by simp; ring)
  have hq : j / vs / g < k := Int.ediv_lt_of_lt_mul hg
    (Int.ediv_lt_of_lt_mul hvs (by rw [show k * g * vs = vs * g * k by ring]; exact hj.2))
  have hidx := vecDigit_bounds hvs j (add_mul_bounds (hX _ _ (emod_mem (j / vs) hg) (emod_mem i hr))
    (emod_mem i hr))
  rw [happ]
  simp only [shapeBox, List.map_cons, List.map_nil, inBox_cons_cons, contains_ofExtent,
    inBox_nil_left, and_true]
  exact ⟨⟨Int.ediv_nonneg (Int.ediv_nonneg hj.1 hvs.le) hg.le, hq⟩,
    ⟨Int.ediv_nonneg hi.1 hr.le, Int.ediv_lt_of_lt_mul hr (by rw [mul_comm]; exact hi.2)⟩, hidx⟩

end Swizzle

/-! ## The swizzled factories -/

/-- What `makeGemmABLayoutFullBank` checks and returns: the row group `s = i % 8` XORs the place
`c` of the vector in its group of `8`. -/
theorem makeGemmABLayoutFullBank_eq_ok {stride continuous elementSize : Int} {l : Layout}
    (hvs : 0 < (128 : Int).tdiv elementSize)
    (h : makeGemmABLayoutFullBank stride continuous elementSize = .ok l) :
    stride.tmod 8 = 0 ∧ continuous.tmod ((128 : Int).tdiv elementSize * 8) = 0 ∧
      l.forwardVar = rowColVars stride continuous ∧ ∀ i j, l.apply [i, j] =
        [j / (128 : Int).tdiv elementSize / 8, i / 8, j % (128 : Int).tdiv elementSize +
          (128 : Int).tdiv elementSize * ((((j / (128 : Int).tdiv elementSize % 8).toNat ^^^
            (i % 8).toNat : Nat) : Int) + 8 * (i % 8))] := by
  set vs := (128 : Int).tdiv elementSize with hvs_def
  simp only [makeGemmABLayoutFullBank, ← hvs_def, Except.bind_eq_ok, icheck_eq_ok, beq_iff_eq] at h
  obtain ⟨-, h8, -, hcv, hl⟩ := h
  injection hl with hl
  subst hl
  refine ⟨h8, hcv, rfl, fun i j => ?_⟩
  simp only [Layout.apply, List.map_cons, List.map_nil, valueAt_add, valueAt_mul, valueAt_floorDiv,
    valueAt_floorMod, valueAt_var, valueAt_int, List.getD_cons_zero, List.getD_cons_succ]
  rw [valueAt_xor8x8]
  · simp only [valueAt_floorDiv, valueAt_floorMod, valueAt_var, valueAt_int, List.getD_cons_zero,
      List.getD_cons_succ, Int.fdiv_eq_ediv _ hvs.le, Int.fmod_eq_emod _ hvs.le]
    simp [Int.fdiv_eq_ediv, Int.fmod_eq_emod]
    ring
  all_goals simp [Int.fdiv_eq_ediv, Int.fmod_eq_emod, Int.fdiv_eq_ediv _ hvs.le]; omega

/-- What `makeGemmABLayoutHalfBank` checks and returns: the pair `s / 2` of rows XORs the place
`c` of the vector in its group of `4`. -/
theorem makeGemmABLayoutHalfBank_eq_ok {stride continuous elementSize : Int} {l : Layout}
    (hvs : 0 < (128 : Int).tdiv elementSize)
    (h : makeGemmABLayoutHalfBank stride continuous elementSize = .ok l) :
    stride.tmod 8 = 0 ∧ continuous.tmod ((128 : Int).tdiv elementSize * 4) = 0 ∧
      l.forwardVar = rowColVars stride continuous ∧ ∀ i j, l.apply [i, j] =
        [j / (128 : Int).tdiv elementSize / 4, i / 8, j % (128 : Int).tdiv elementSize +
          (128 : Int).tdiv elementSize * ((((j / (128 : Int).tdiv elementSize % 4).toNat ^^^
            (i % 8 / 2).toNat : Nat) : Int) + 4 * (i % 8))] := by
  set vs := (128 : Int).tdiv elementSize with hvs_def
  simp only [makeGemmABLayoutHalfBank, ← hvs_def, Except.bind_eq_ok, icheck_eq_ok, beq_iff_eq] at h
  obtain ⟨-, h8, -, hcv, hl⟩ := h
  injection hl with hl
  subst hl
  refine ⟨h8, hcv, rfl, fun i j => ?_⟩
  simp only [Layout.apply, List.map_cons, List.map_nil, valueAt_add, valueAt_mul, valueAt_floorDiv,
    valueAt_floorMod, valueAt_var, valueAt_int, List.getD_cons_zero, List.getD_cons_succ]
  rw [valueAt_xor4x4]
  · simp only [valueAt_floorDiv, valueAt_floorMod, valueAt_var, valueAt_int, List.getD_cons_zero,
      List.getD_cons_succ, Int.fdiv_eq_ediv _ hvs.le, Int.fmod_eq_emod _ hvs.le]
    simp [Int.fdiv_eq_ediv, Int.fmod_eq_emod]
    ring
  all_goals simp [Int.fdiv_eq_ediv, Int.fmod_eq_emod, Int.fdiv_eq_ediv _ hvs.le]; omega

/-- The full-bank factory returns exactly when its two checks hold. -/
theorem makeGemmABLayoutFullBank_ok_iff {stride continuous elementSize : Int} :
    (∃ l, makeGemmABLayoutFullBank stride continuous elementSize = .ok l) ↔
      stride.tmod 8 = 0 ∧ continuous.tmod ((128 : Int).tdiv elementSize * 8) = 0 := by
  simp [makeGemmABLayoutFullBank, Except.bind_eq_ok, pure, Except.pure]

/-- The half-bank factory returns exactly when its two checks hold. -/
theorem makeGemmABLayoutHalfBank_ok_iff {stride continuous elementSize : Int} :
    (∃ l, makeGemmABLayoutHalfBank stride continuous elementSize = .ok l) ↔
      stride.tmod 8 = 0 ∧ continuous.tmod ((128 : Int).tdiv elementSize * 4) = 0 := by
  simp [makeGemmABLayoutHalfBank, Except.bind_eq_ok, pure, Except.pure]

theorem makeGemmABLayoutFullBank_valid {stride continuous elementSize : Int} {l : Layout}
    (hvs : 0 < (128 : Int).tdiv elementSize) (hs : 0 < stride) (hc : 0 < continuous)
    (h : makeGemmABLayoutFullBank stride continuous elementSize = .ok l) :
    l.Valid ∧ l.outputShape = .ok [continuous / ((128 : Int).tdiv elementSize * 8), stride / 8,
      (128 : Int).tdiv elementSize * 64] := by
  obtain ⟨h8, hcv, hvars, happ⟩ := makeGemmABLayoutFullBank_eq_ok hvs h
  obtain ⟨m, rfl⟩ := Int.dvd_of_tmod_eq_zero h8
  obtain ⟨k, rfl⟩ := Int.dvd_of_tmod_eq_zero hcv
  rw [Int.mul_ediv_cancel_left _ (show (128 : Int).tdiv elementSize * 8 ≠ 0 by omega),
    show 8 * m / 8 = m by omega, show (128 : Int).tdiv elementSize * 64 =
      (128 : Int).tdiv elementSize * (8 * 8) from rfl]
  exact valid_of_swizzle (fun c s => ((c.toNat ^^^ s.toNat : Nat) : Int)) hvars hvs
    (by decide) (by decide) (by omega) (pos_of_mul_pos_right hc (by omega)) happ
    (fun c s hc hs => ⟨Int.natCast_nonneg _, xor_lt_two_pow (show c < 2 ^ 3 by omega)
      (show s < 2 ^ 3 by omega)⟩)
    (fun c c' s hc hc' _ h => eq_of_xor_eq hc.1 hc'.1 rfl h)

theorem makeGemmABLayoutHalfBank_valid {stride continuous elementSize : Int} {l : Layout}
    (hvs : 0 < (128 : Int).tdiv elementSize) (hs : 0 < stride) (hc : 0 < continuous)
    (h : makeGemmABLayoutHalfBank stride continuous elementSize = .ok l) :
    l.Valid ∧ l.outputShape = .ok [continuous / ((128 : Int).tdiv elementSize * 4), stride / 8,
      (128 : Int).tdiv elementSize * 32] := by
  obtain ⟨h8, hcv, hvars, happ⟩ := makeGemmABLayoutHalfBank_eq_ok hvs h
  obtain ⟨m, rfl⟩ := Int.dvd_of_tmod_eq_zero h8
  obtain ⟨k, rfl⟩ := Int.dvd_of_tmod_eq_zero hcv
  rw [Int.mul_ediv_cancel_left _ (show (128 : Int).tdiv elementSize * 4 ≠ 0 by omega),
    show 8 * m / 8 = m by omega, show (128 : Int).tdiv elementSize * 32 =
      (128 : Int).tdiv elementSize * (4 * 8) from rfl]
  exact valid_of_swizzle (fun c s => ((c.toNat ^^^ (s / 2).toNat : Nat) : Int)) hvars hvs
    (by decide) (by decide) (by omega) (pos_of_mul_pos_right hc (by omega)) happ
    (fun c s hc hs => ⟨Int.natCast_nonneg _, xor_lt_two_pow (show c < 2 ^ 2 by omega)
      (show s / 2 < 2 ^ 2 by omega)⟩)
    (fun c c' s hc hc' _ h => eq_of_xor_eq hc.1 hc'.1 rfl h)

/-- `makeGemmABLayoutF64_Kouter` in value form. -/
theorem apply_makeGemmABLayoutF64Kouter (stride continuous i j : Int) :
    (makeGemmABLayoutF64Kouter stride continuous).apply [i, j] =
      [j / 16, i / 4, swizzle222 (j % 16) (i % 4) + 16 * (i % 4)] := by
  simp only [makeGemmABLayoutF64Kouter, Layout.apply, List.map_cons, List.map_nil, valueAt_add,
    valueAt_mul, valueAt_floorDiv, valueAt_floorMod, valueAt_var, valueAt_int, List.getD_cons_zero,
    List.getD_cons_succ]
  rw [valueAt_xor4x4]
  · simp [Int.fdiv_eq_ediv, Int.fmod_eq_emod, swizzle222]
    ring
  all_goals simp [Int.fdiv_eq_ediv, Int.fmod_eq_emod]; omega

/-- `makeGemmABLayoutF64_Kinner` in value form. -/
theorem apply_makeGemmABLayoutF64Kinner (stride continuous i j : Int) :
    (makeGemmABLayoutF64Kinner stride continuous).apply [i, j] =
      [j / 16, i / 4, swizzle204 (j % 16) (i % 4) + 16 * (i % 4)] := by
  simp only [makeGemmABLayoutF64Kinner, Layout.apply, List.map_cons, List.map_nil, valueAt_add,
    valueAt_mul, valueAt_floorDiv, valueAt_floorMod, valueAt_var, valueAt_int, List.getD_cons_zero,
    List.getD_cons_succ]
  rw [valueAt_xor4x4]
  · simp [Int.fdiv_eq_ediv, Int.fmod_eq_emod, swizzle204]
    ring
  all_goals simp [Int.fdiv_eq_ediv, Int.fmod_eq_emod]; omega

section F64

variable {stride continuous : Int}

/-- The `F64` layouts are the swizzled tiles with vectors of one element, groups of `16` and row
groups of `4`. -/
theorem apply_makeGemmABLayoutF64Kouter_tile (i j : Int) :
    (makeGemmABLayoutF64Kouter stride continuous).apply [i, j] =
      [j / 1 / 16, i / 4, j % 1 + 1 * (swizzle222 (j / 1 % 16) (i % 4) + 16 * (i % 4))] := by
  simpa using apply_makeGemmABLayoutF64Kouter stride continuous i j

theorem apply_makeGemmABLayoutF64Kinner_tile (i j : Int) :
    (makeGemmABLayoutF64Kinner stride continuous).apply [i, j] =
      [j / 1 / 16, i / 4, j % 1 + 1 * (swizzle204 (j / 1 % 16) (i % 4) + 16 * (i % 4))] := by
  simpa using apply_makeGemmABLayoutF64Kinner stride continuous i j

theorem makeGemmABLayoutF64Kouter_injective (hs : 0 < stride) (hc : 0 < continuous) :
    (makeGemmABLayoutF64Kouter stride continuous).Injective :=
  injective_of_swizzle swizzle222 rfl hs hc Int.one_pos (by decide) (by decide)
    apply_makeGemmABLayoutF64Kouter_tile (fun _ _ => swizzle222_mem)
    (fun _ _ _ hc hc' hs => swizzle222_inj hc hc' hs) (by decide)

theorem makeGemmABLayoutF64Kinner_injective (hs : 0 < stride) (hc : 0 < continuous) :
    (makeGemmABLayoutF64Kinner stride continuous).Injective :=
  injective_of_swizzle swizzle204 rfl hs hc Int.one_pos (by decide) (by decide)
    apply_makeGemmABLayoutF64Kinner_tile (fun _ _ => swizzle204_mem)
    (fun _ _ _ _ _ hs => swizzle204_inj hs) (by decide)

theorem makeGemmABLayoutF64Kouter_valid (hs : 0 < stride) (hc : 0 < continuous)
    (hs4 : stride % 4 = 0) (hc16 : continuous % 16 = 0) :
    (makeGemmABLayoutF64Kouter stride continuous).Valid ∧
      (makeGemmABLayoutF64Kouter stride continuous).outputShape = .ok [continuous / 16, stride / 4, 64] := by
  obtain ⟨m, rfl⟩ := Int.dvd_of_emod_eq_zero hs4
  obtain ⟨k, rfl⟩ := Int.dvd_of_emod_eq_zero hc16
  rw [show 16 * k / 16 = k by omega, show 4 * m / 4 = m by omega, show (64 : Int) = 1 * (16 * 4) from rfl]
  exact valid_of_swizzle swizzle222 (by simp [makeGemmABLayoutF64Kouter]) Int.one_pos (by decide) (by decide)
    (by omega) (by omega) apply_makeGemmABLayoutF64Kouter_tile (fun _ _ => swizzle222_mem)
    (fun _ _ _ hc hc' hs => swizzle222_inj hc hc' hs)

theorem makeGemmABLayoutF64Kinner_valid (hs : 0 < stride) (hc : 0 < continuous)
    (hs4 : stride % 4 = 0) (hc16 : continuous % 16 = 0) :
    (makeGemmABLayoutF64Kinner stride continuous).Valid ∧
      (makeGemmABLayoutF64Kinner stride continuous).outputShape = .ok [continuous / 16, stride / 4, 64] := by
  obtain ⟨m, rfl⟩ := Int.dvd_of_emod_eq_zero hs4
  obtain ⟨k, rfl⟩ := Int.dvd_of_emod_eq_zero hc16
  rw [show 16 * k / 16 = k by omega, show 4 * m / 4 = m by omega, show (64 : Int) = 1 * (16 * 4) from rfl]
  exact valid_of_swizzle swizzle204 (by simp [makeGemmABLayoutF64Kinner]) Int.one_pos (by decide) (by decide)
    (by omega) (by omega) apply_makeGemmABLayoutF64Kinner_tile (fun _ _ => swizzle204_mem)
    (fun _ _ _ _ _ hs => swizzle204_inj hs)

/-- An `F64` layout over a stride that is not a multiple of `4` misses a slot of its output box:
the last row tile is cut short, and the slot `63` of that tile belongs to a row past the end. -/
theorem not_surjOn_of_f64 {l : Layout} (X : Int → Int → Int)
    (hvars : l.forwardVar = rowColVars stride continuous)
    (happ : ∀ i j, l.apply [i, j] = [j / 16, i / 4, X (j % 16) (i % 4) + 16 * (i % 4)])
    (hX : ∀ c s, (0 ≤ c ∧ c < 16) → (0 ≤ s ∧ s < 4) → 0 ≤ X c s ∧ X c s < 16)
    {j₀ : Int} (hj₀ : 0 ≤ j₀ ∧ j₀ < continuous) (h15 : X (j₀ % 16) 3 = 15) (hs : 4 < stride)
    (hs4 : stride % 4 ≠ 0) {S : List Int} (hS : l.outputShape = .ok S) :
    ¬ Set.SurjOn l.apply (boxSet l.forwardVar) (boxSet (shapeBox S)) := by
  have hin : ∀ i j, (0 ≤ i ∧ i < stride) → (0 ≤ j ∧ j < continuous) →
      InBox (shapeBox S) (l.apply [i, j]) := fun i j hi hj =>
    Layout.mapsTo_of_outputShape hS (by simp [boxSet, hvars, hi, hj])
  have h₁ := hin (stride - 1) 0 (by omega) (by omega)
  have h₂ := hin 3 j₀ (by omega) hj₀
  rw [happ] at h₁
  rw [happ, show (3 : Int) % 4 = 3 from rfl, h15] at h₂
  obtain ⟨s₀, s₁, s₂, rfl⟩ : ∃ a b c, S = [a, b, c] := by
    match S, h₁.length_eq with
    | [a, b, c], _ => exact ⟨a, b, c, rfl⟩
  simp only [shapeBox, List.map_cons, List.map_nil, inBox_cons_cons, contains_ofExtent,
    inBox_nil_left, and_true] at h₁ h₂
  intro hsurj
  obtain ⟨x, hx, hxy⟩ := hsurj (show [0, (stride - 1) / 4, 63] ∈ boxSet (shapeBox [s₀, s₁, s₂]) by
    simp [boxSet, shapeBox]; omega)
  simp only [boxSet, hvars, Set.mem_setOf_eq, inBox_rowColVars] at hx
  obtain ⟨i, j, rfl, hi, hj⟩ := hx
  rw [happ] at hxy
  simp only [List.cons.injEq, and_true] at hxy
  have := hX (j % 16) (i % 4) (emod_mem j (by decide)) (emod_mem i (by decide))
  omega

end F64

/-! ## The padded layout -/

/-- Row-major with a pitch `P` at least the row length is injective. -/
theorem rowMajor_injective {a b P : Int} (ha : 0 < a) (hb : 0 < b) (hP : b ≤ P) :
    (⟨rowColVars a b, [.add (.mul (.var 0) (.int P)) (.var 1)]⟩ : Layout).Injective := by
  refine injective_of_arith rfl ha hb (by simp [Layout.apply]) (fun i j hi hj => ?_)
    (fun i j i' j' hi hj hi' hj' h => ?_)
  · simpa [Layout.apply] using Int.add_nonneg (Int.mul_nonneg hi.1 (by omega)) hj.1
  · simp only [Layout.apply, List.map_cons, List.map_nil, valueAt_add, valueAt_mul, valueAt_var,
      valueAt_int, List.getD_cons_zero, List.getD_cons_succ, List.cons.injEq, and_true] at h
    have := eq_of_add_mul_eq (show 0 ≤ j ∧ j < P by omega) (show 0 ≤ j' ∧ j' < P by omega)
      (show j + P * i = j' + P * i' by rw [mul_comm P i, mul_comm P i', add_comm j, add_comm j']; exact h)
    exact ⟨this.2, this.1⟩

theorem makeGemmABLayoutPadded_injective {stride continuous elementSize : Int} (hs : 0 < stride)
    (hc : 0 < continuous) (hes : 0 < elementSize) :
    (makeGemmABLayoutPadded stride continuous elementSize).Injective := by
  refine rowMajor_injective hs hc ?_
  split
  · have := Int.tdiv_nonneg (show (0 : Int) ≤ 128 by decide) hes.le
    omega
  · exact le_rfl

/-! ## The Volta layouts -/

/-- The row part of the crosswise offset lies in the rows' range: a row group of `16` rows is
permuted within itself. -/
theorem crosswise_row_bounds {i m b₁ b₂ : Int} (hi : 0 ≤ i ∧ i < 32 * m) (h₁ : 0 ≤ b₁ ∧ b₁ < 2)
    (h₂ : 0 ≤ b₂ ∧ b₂ < 2) :
    0 ≤ b₁ + 2 * (b₂ + 2 * (i % 4 + 4 * (i / 16))) ∧
      b₁ + 2 * (b₂ + 2 * (i % 4 + 4 * (i / 16))) < 32 * m := by
  omega

/-- A row is determined by its group of `16`, its last two bits, and the two bits the crosswise
swizzle XORs with the column. -/
theorem crosswise_row_eq {i i' v w : Int} (h16 : i / 16 = i' / 16) (h4 : i % 4 = i' % 4)
    (h₁ : (i % 8 / 4 + v) % 2 = (i' % 8 / 4 + v) % 2)
    (h₂ : (i % 32 / 16 + i % 16 / 8 + w) % 2 = (i' % 32 / 16 + i' % 16 / 8 + w) % 2) : i = i' := by
  omega

theorem makeGemmVoltaABLayoutCrosswise_valid {stride continuous : Int} {l : Layout}
    (hs : 0 < stride) (hc : 0 < continuous)
    (h : makeGemmVoltaABLayoutCrosswise stride continuous = .ok l) :
    l.Valid ∧ l.outputShape = .ok [stride * continuous] := by
  simp only [makeGemmVoltaABLayoutCrosswise, Except.bind_eq_ok, icheck_eq_ok, Bool.and_eq_true,
    beq_iff_eq] at h
  obtain ⟨-, ⟨h32, hc32⟩, hl⟩ := h
  injection hl with hl
  obtain ⟨m, rfl⟩ := Int.dvd_of_tmod_eq_zero h32
  obtain ⟨k, rfl⟩ := Int.dvd_of_tmod_eq_zero hc32
  have happ : ∀ i j, l.apply [i, j] = [j % 4 + 4 * (((i % 8 / 4 + j / 4 % 8 % 4 / 2) % 2 +
      2 * ((i % 32 / 16 + i % 16 / 8 + j / 4 % 8 / 4) % 2 + 2 * (i % 4 + 4 * (i / 16)))) +
        32 * m * (j / 4))] := by
    intro i j
    subst hl
    simp [Layout.apply, Int.fdiv_eq_ediv, Int.fmod_eq_emod]
    ring
  have two : (0 : Int) < 2 := by decide
  have four : (0 : Int) < 4 := by decide
  refine valid_of_arith (by rw [← hl]) (by omega) (by omega) (by simp; exact Int.mul_pos hs hc)
    (fun i j hi hj => ?_) (fun i j i' j' hi hj hi' hj' h => ?_) (by simp)
  · have hoff := add_mul_bounds (emod_mem j four)
      (add_mul_bounds (crosswise_row_bounds hi (emod_mem (i % 8 / 4 + j / 4 % 8 % 4 / 2) two)
        (emod_mem (i % 32 / 16 + i % 16 / 8 + j / 4 % 8 / 4) two))
          (show 0 ≤ j / 4 ∧ j / 4 < 8 * k by omega))
    rw [happ]
    simpa [shapeBox, show 4 * (32 * m * (8 * k)) = 32 * m * (32 * k) by ring] using hoff
  · rw [happ, happ] at h
    simp only [List.cons.injEq, and_true] at h
    obtain ⟨h1, h⟩ := eq_of_add_mul_eq (emod_mem j four) (emod_mem j' four) h
    obtain ⟨h, hj4⟩ := eq_of_add_mul_eq (crosswise_row_bounds hi (emod_mem _ two) (emod_mem _ two))
      (crosswise_row_bounds hi' (emod_mem _ two) (emod_mem _ two)) h
    obtain ⟨hb1, h⟩ := eq_of_add_mul_eq (emod_mem _ two) (emod_mem _ two) h
    obtain ⟨hb2, h⟩ := eq_of_add_mul_eq (emod_mem _ two) (emod_mem _ two) h
    obtain ⟨hi4, hi16⟩ := eq_of_add_mul_eq (emod_mem i four) (emod_mem i' four) h
    rw [hj4] at hb1 hb2
    exact ⟨crosswise_row_eq hi16 hi4 hb1 hb2, eq_of_ediv_emod_eq hj4 h1⟩

/-- The contiguous position in a congruous tile: a high part `0` or `4` and a swizzled low part in
`[0, 4)` are read back from their sum. -/
theorem eq_of_high_add_eq {a a' x x' : Int} (ha : a = 0 ∨ a = 4) (ha' : a' = 0 ∨ a' = 4)
    (hx : 0 ≤ x ∧ x < 4) (hx' : 0 ≤ x' ∧ x' < 4) (h : a + x = a' + x') : a = a' ∧ x = x' := by
  omega

/-- The congruous layouts are bijections onto `[0, stride * continuous)` whenever the tile
residual `r ∈ [0, 8)` of a vector is split into a strided position `p r ∈ [0, 4)` and a
contiguous high part `q r ∈ {0, 4}` that together determine it. -/
theorem voltaCongruousLayout_valid {P H : PrimExpr → PrimExpr} (p q : Int → Int)
    (hP : ∀ e x, (P e).valueAt x = p (e.valueAt x)) (hH : ∀ e x, (H e).valueAt x = q (e.valueAt x))
    (hbits : ∀ r, 0 ≤ r ∧ r < 8 → (0 ≤ p r ∧ p r < 4) ∧ (q r = 0 ∨ q r = 4))
    (hdet : ∀ r r', 0 ≤ r ∧ r < 8 → 0 ≤ r' ∧ r' < 8 → p r = p r' → q r = q r' → r = r')
    {stride continuous : Int} {l : Layout} (hs : 0 < stride) (hc : 0 < continuous)
    (h : voltaCongruousLayout P H stride continuous = .ok l) :
    l.Valid ∧ l.outputShape = .ok [stride * continuous] := by
  simp only [voltaCongruousLayout, Except.bind_eq_ok, icheck_eq_ok, Bool.and_eq_true,
    beq_iff_eq] at h
  obtain ⟨-, ⟨h4, h64⟩, hl⟩ := h
  injection hl with hl
  obtain ⟨m, rfl⟩ := Int.dvd_of_tmod_eq_zero h4
  obtain ⟨k, rfl⟩ := Int.dvd_of_tmod_eq_zero h64
  have eight : (0 : Int) < 8 := by decide
  have four : (0 : Int) < 4 := by decide
  have hr : ∀ j : Int, 0 ≤ j / 8 % 8 ∧ j / 8 % 8 < 8 := fun j => emod_mem _ eight
  have happ : ∀ i j, l.apply [i, j] = [j % 8 + 8 * ((q (j / 8 % 8) +
      (((i % 4).toNat ^^^ (p (j / 8 % 8)).toNat : Nat) : Int)) + 8 * (j / 8 / 8)) +
        64 * k * (p (j / 8 % 8) + 4 * (i / 4))] := by
    intro i j
    subst hl
    simp only [Layout.apply, List.map_cons, List.map_nil, valueAt_add, valueAt_mul, hH]
    rw [valueAt_xor4x4]
    · simp [hP, Int.fdiv_eq_ediv, Int.fmod_eq_emod]
      ring
    · simp [Int.fmod_eq_emod]; omega
    · simpa [hP, Int.fdiv_eq_ediv, Int.fmod_eq_emod] using (hbits _ (hr j)).1
  have hXb : ∀ i j : Int, 0 ≤ (((i % 4).toNat ^^^ (p (j / 8 % 8)).toNat : Nat) : Int) ∧
      (((i % 4).toNat ^^^ (p (j / 8 % 8)).toNat : Nat) : Int) < 4 := fun i j =>
    ⟨Int.natCast_nonneg _, xor_lt_two_pow (show i % 4 < 2 ^ 2 by omega)
      (show p (j / 8 % 8) < 2 ^ 2 from (hbits _ (hr j)).1.2)⟩
  have hX : ∀ i j : Int, 0 ≤ q (j / 8 % 8) + (((i % 4).toNat ^^^ (p (j / 8 % 8)).toNat : Nat) : Int) ∧
      q (j / 8 % 8) + (((i % 4).toNat ^^^ (p (j / 8 % 8)).toNat : Nat) : Int) < 8 := fun i j => by
    have := hXb i j
    have := (hbits _ (hr j)).2
    omega
  have hec : ∀ i j : Int, 0 ≤ j ∧ j < 64 * k → 0 ≤ j % 8 + 8 * ((q (j / 8 % 8) +
      (((i % 4).toNat ^^^ (p (j / 8 % 8)).toNat : Nat) : Int)) + 8 * (j / 8 / 8)) ∧
        j % 8 + 8 * ((q (j / 8 % 8) + (((i % 4).toNat ^^^ (p (j / 8 % 8)).toNat : Nat) : Int)) +
          8 * (j / 8 / 8)) < 64 * k := fun i j hj => by
    have := add_mul_bounds (emod_mem j eight)
      (add_mul_bounds (hX i j) (show 0 ≤ j / 8 / 8 ∧ j / 8 / 8 < k by omega))
    rwa [show 8 * (8 * k) = 64 * k by ring] at this
  have hes : ∀ i j : Int, 0 ≤ i ∧ i < 4 * m →
      0 ≤ p (j / 8 % 8) + 4 * (i / 4) ∧ p (j / 8 % 8) + 4 * (i / 4) < 4 * m :=
    fun i j hi => add_mul_bounds (hbits _ (hr j)).1 (show 0 ≤ i / 4 ∧ i / 4 < m by omega)
  refine valid_of_arith (by rw [← hl]) (by omega) (by omega) (by simp; exact Int.mul_pos hs hc)
    (fun i j hi hj => ?_) (fun i j i' j' hi hj hi' hj' h => ?_) (by simp)
  · rw [happ]
    simpa [shapeBox, show 64 * k * (4 * m) = 4 * m * (64 * k) by ring]
      using add_mul_bounds (hec i j hj) (hes i j hi)
  · rw [happ, happ] at h
    simp only [List.cons.injEq, and_true] at h
    obtain ⟨hec', hes'⟩ := eq_of_add_mul_eq (hec i j hj) (hec i' j' hj') h
    obtain ⟨hp, hi4⟩ := eq_of_add_mul_eq (hbits _ (hr j)).1 (hbits _ (hr j')).1 hes'
    obtain ⟨hj8, hec'⟩ := eq_of_add_mul_eq (emod_mem j eight) (emod_mem j' eight) hec'
    obtain ⟨hpc, htc⟩ := eq_of_add_mul_eq (hX i j) (hX i' j') hec'
    obtain ⟨hq, hxor⟩ := eq_of_high_add_eq (hbits _ (hr j)).2 (hbits _ (hr j')).2 (hXb i j)
      (hXb i' j') hpc
    have hi := eq_of_xor_eq (emod_mem i four).1 (emod_mem i' four).1 hp hxor
    exact ⟨eq_of_ediv_emod_eq hi4 hi,
      eq_of_ediv_emod_eq (eq_of_ediv_emod_eq htc (hdet _ _ (hr j) (hr j') hp hq)) hj8⟩

theorem makeGemmVoltaALayoutCongruous_valid {stride continuous : Int} {l : Layout}
    (hs : 0 < stride) (hc : 0 < continuous)
    (h : makeGemmVoltaALayoutCongruous stride continuous = .ok l) :
    l.Valid ∧ l.outputShape = .ok [stride * continuous] := by
  refine voltaCongruousLayout_valid (fun v => Int.fdiv v 2) (fun v => Int.fmod v 2 * 4)
    (fun _ _ => by rfl) (fun _ _ => by rfl) (fun r hr => ?_) (fun r r' hr hr' h₁ h₂ => ?_) hs hc h
  all_goals simp only [Int.fdiv_eq_ediv _ (show (0 : Int) ≤ 2 by decide),
    Int.fmod_eq_emod _ (show (0 : Int) ≤ 2 by decide)] at *
  all_goals omega

theorem makeGemmVoltaBLayoutCongruous_valid {stride continuous : Int} {l : Layout}
    (hs : 0 < stride) (hc : 0 < continuous)
    (h : makeGemmVoltaBLayoutCongruous stride continuous = .ok l) :
    l.Valid ∧ l.outputShape = .ok [stride * continuous] := by
  refine voltaCongruousLayout_valid (fun v => Int.fmod v 4) (fun v => Int.fdiv v 4 * 4)
    (fun _ _ => by rfl) (fun _ _ => by rfl) (fun r hr => ?_) (fun r r' hr hr' h₁ h₂ => ?_) hs hc h
  all_goals simp only [Int.fdiv_eq_ediv _ (show (0 : Int) ≤ 4 by decide),
    Int.fmod_eq_emod _ (show (0 : Int) ≤ 4 by decide)] at *
  all_goals omega

/-! ## Choosing a layout -/

section Choice

variable {stride continuous elementSize kfactor : Int} {l : Layout}

theorem makeGemmABLayout_injective (hs : 0 < stride) (hc : 0 < continuous)
    (hes : elementSize = 8 ∨ elementSize = 16 ∨ elementSize = 32 ∨ elementSize = 64)
    (h : makeGemmABLayout stride continuous elementSize kfactor = .ok l) : l.Injective := by
  have hvs : 0 < (128 : Int).tdiv elementSize := by rcases hes with rfl | rfl | rfl | rfl <;> decide
  have hpos : 0 < elementSize := by omega
  unfold makeGemmABLayout at h
  dsimp only at h
  split_ifs at h
  · injection h with h; subst h; exact makeGemmABLayoutF64Kouter_injective hs hc
  · injection h with h; subst h; exact makeGemmABLayoutF64Kinner_injective hs hc
  · injection h with h; subst h; exact makeGemmABLayoutPadded_injective hs hc hpos
  · injection h with h; subst h; exact makeGemmABLayoutPadded_injective hs hc hpos
  · exact (makeGemmABLayoutFullBank_valid hvs hs hc h).1.injective
  · exact (makeGemmABLayoutHalfBank_valid hvs hs hc h).1.injective
  · injection h with h; subst h; exact makeGemmABLayoutPadded_injective hs hc hpos

theorem makeGemmABLayout_injective_fullBank :
    ∃ l, makeGemmABLayout 8 64 16 2 = .ok l ∧ l.Injective :=
  ⟨_, rfl, @makeGemmABLayout_injective 8 64 16 2 _ (by decide) (by decide) (by decide) rfl⟩

/-- With vector groups of `4` dividing the row, `makeGemmABLayout` calls a bank factory: the full
one when groups of `8` divide the row, the half one otherwise. -/
theorem makeGemmABLayout_eq_bank (hc : 0 < continuous)
    (hes : elementSize = 8 ∨ elementSize = 16 ∨ elementSize = 32)
    (hk : ¬ (kfactor = 1 ∧ elementSize = 8)) (hbank : continuous % (128 / elementSize * 4) = 0) :
    makeGemmABLayout stride continuous elementSize kfactor =
      if continuous % (128 / elementSize * 8) = 0 then makeGemmABLayoutFullBank stride continuous elementSize
      else makeGemmABLayoutHalfBank stride continuous elementSize := by
  have hvs : 0 < (128 : Int).tdiv elementSize := by rcases hes with rfl | rfl | rfl <;> decide
  have hmod : ∀ m : Int, 0 < m → continuous.tmod ((128 : Int).tdiv elementSize * m) =
      continuous % (128 / elementSize * m) := fun m hm => by
    rw [Int.tmod_eq_emod hc.le (Int.mul_nonneg hvs.le hm.le), Int.tdiv_eq_ediv (by decide) (by omega)]
  have h64 : elementSize ≠ 64 := by omega
  simp [makeGemmABLayout, h64, hk, hmod 8 (by decide), hmod 4 (by decide), hbank]

/-- For element sizes `8`, `16` and `32` with vector groups of `4` dividing the row,
`makeGemmABLayout` returns the full-bank layout when groups of `8` divide the row and the
half-bank one otherwise, with their output shapes, and the layout it returns is valid. -/
theorem makeGemmABLayout_valid_of_bank (hs : 0 < stride) (hc : 0 < continuous)
    (hes : elementSize = 8 ∨ elementSize = 16 ∨ elementSize = 32)
    (hk : ¬ (kfactor = 1 ∧ elementSize = 8)) (hbank : continuous % (128 / elementSize * 4) = 0)
    (h : makeGemmABLayout stride continuous elementSize kfactor = .ok l) :
    ((continuous % (128 / elementSize * 8) = 0 ∧
        makeGemmABLayoutFullBank stride continuous elementSize = .ok l ∧
        l.outputShape = .ok [continuous / (128 / elementSize * 8), stride / 8, 128 / elementSize * 64]) ∨
      (continuous % (128 / elementSize * 8) ≠ 0 ∧
        makeGemmABLayoutHalfBank stride continuous elementSize = .ok l ∧
        l.outputShape = .ok [continuous / (128 / elementSize * 4), stride / 8, 128 / elementSize * 32])) ∧
    l.Valid := by
  have hvs : 0 < (128 : Int).tdiv elementSize := by rcases hes with rfl | rfl | rfl <;> decide
  have hdiv : (128 : Int).tdiv elementSize = 128 / elementSize := Int.tdiv_eq_ediv (by decide) (by omega)
  rw [makeGemmABLayout_eq_bank hc hes hk hbank] at h
  split_ifs at h with hfull
  · obtain ⟨hv, hS⟩ := makeGemmABLayoutFullBank_valid hvs hs hc h
    exact ⟨.inl ⟨hfull, h, hdiv ▸ hS⟩, hv⟩
  · obtain ⟨hv, hS⟩ := makeGemmABLayoutHalfBank_valid hvs hs hc h
    exact ⟨.inr ⟨hfull, h, hdiv ▸ hS⟩, hv⟩

theorem makeGemmABLayout_valid_of_bank_halfBank :
    ∃ l, makeGemmABLayout 8 32 16 2 = .ok l ∧
      (((32 : Int) % (128 / 16 * 8) = 0 ∧ makeGemmABLayoutFullBank 8 32 16 = .ok l ∧
          l.outputShape = .ok [32 / (128 / 16 * 8), 8 / 8, 128 / 16 * 64]) ∨
        ((32 : Int) % (128 / 16 * 8) ≠ 0 ∧ makeGemmABLayoutHalfBank 8 32 16 = .ok l ∧
          l.outputShape = .ok [32 / (128 / 16 * 4), 8 / 8, 128 / 16 * 32])) ∧ l.Valid :=
  ⟨_, rfl, @makeGemmABLayout_valid_of_bank 8 32 16 2 _ (by decide) (by decide) (by decide)
    (by decide) (by decide) rfl⟩

/-- For doubles with `kfactor` `1` or `2` and tiles of `4 × 16` filling the operand,
`makeGemmABLayout` returns the `Kouter` or the `Kinner` swizzle, valid with output shape
`[continuous / 16, stride / 4, 64]`. -/
theorem makeGemmABLayout_valid_of_f64 (hs : 0 < stride) (hc : 0 < continuous)
    (hk : kfactor = 1 ∨ kfactor = 2) (hs4 : stride % 4 = 0) (hc16 : continuous % 16 = 0) :
    ∃ l, makeGemmABLayout stride continuous 64 kfactor = .ok l ∧
      l = (if kfactor = 1 then makeGemmABLayoutF64Kouter stride continuous
        else makeGemmABLayoutF64Kinner stride continuous) ∧
      l.Valid ∧ l.outputShape = .ok [continuous / 16, stride / 4, 64] := by
  have h16 : continuous.tmod 16 = 0 := by rw [Int.tmod_eq_emod hc.le (by decide)]; exact hc16
  rcases hk with rfl | rfl
  · exact ⟨_, by simp [makeGemmABLayout, h16]; rfl, (if_pos rfl).symm,
      makeGemmABLayoutF64Kouter_valid hs hc hs4 hc16⟩
  · exact ⟨_, by simp [makeGemmABLayout, h16]; rfl, (if_neg (by decide)).symm,
      makeGemmABLayoutF64Kinner_valid hs hc hs4 hc16⟩

theorem makeGemmABLayout_valid_of_f64_kouter :
    ∃ l, makeGemmABLayout 8 16 64 1 = .ok l ∧
      l = (if (1 : Int) = 1 then makeGemmABLayoutF64Kouter 8 16 else makeGemmABLayoutF64Kinner 8 16) ∧
      l.Valid ∧ l.outputShape = .ok [16 / 16, 8 / 4, 64] :=
  makeGemmABLayout_valid_of_f64 (by decide) (by decide) (by decide) (by decide) (by decide)

theorem makeGemmABLayout_f64_holes (hs : 4 < stride) (hs4 : stride % 4 ≠ 0) (hc : 16 ≤ continuous)
    (hc16 : continuous % 16 = 0) (hk : kfactor = 1 ∨ kfactor = 2) :
    ∃ l S, makeGemmABLayout stride continuous 64 kfactor = .ok l ∧ l.outputShape = .ok S ∧
      Set.InjOn l.apply (boxSet l.forwardVar) ∧
        ¬ Set.SurjOn l.apply (boxSet l.forwardVar) (boxSet (shapeBox S)) := by
  have h16 : continuous.tmod 16 = 0 := by rw [Int.tmod_eq_emod (by omega) (by decide)]; exact hc16
  rcases hk with rfl | rfl
  · obtain ⟨S, hS, -, hinj⟩ := @makeGemmABLayoutF64Kouter_injective stride continuous (by omega) (by omega)
    refine ⟨_, S, by simp [makeGemmABLayout, h16]; rfl, hS, hinj,
      not_surjOn_of_f64 swizzle222 rfl (apply_makeGemmABLayoutF64Kouter stride continuous)
        (fun _ _ => swizzle222_mem) (show 0 ≤ (3 : Int) ∧ 3 < continuous by omega) (by decide) hs hs4 hS⟩
  · obtain ⟨S, hS, -, hinj⟩ := @makeGemmABLayoutF64Kinner_injective stride continuous (by omega) (by omega)
    refine ⟨_, S, by simp [makeGemmABLayout, h16]; rfl, hS, hinj,
      not_surjOn_of_f64 swizzle204 rfl (apply_makeGemmABLayoutF64Kinner stride continuous)
        (fun _ _ => swizzle204_mem) (show 0 ≤ (12 : Int) ∧ 12 < continuous by omega) (by decide) hs hs4 hS⟩

theorem makeGemmABLayout_f64_holes_five :
    (4 < (5 : Int) ∧ (5 : Int) % 4 ≠ 0 ∧ (16 : Int) ≤ 16 ∧ (16 : Int) % 16 = 0 ∧
      ((1 : Int) = 1 ∨ (1 : Int) = 2)) ∧
    ∃ l S, makeGemmABLayout 5 16 64 1 = .ok l ∧ l.outputShape = .ok S ∧
      Set.InjOn l.apply (boxSet l.forwardVar) ∧
        ¬ Set.SurjOn l.apply (boxSet l.forwardVar) (boxSet (shapeBox S)) :=
  ⟨by decide, makeGemmABLayout_f64_holes (by decide) (by decide) (by decide) (by decide) (by decide)⟩

theorem makeGemmVoltaABLayout_injective {isA : Bool} (hs : 0 < stride) (hc : 0 < continuous)
    (h : makeGemmVoltaABLayout stride continuous isA kfactor = .ok l) : l.Injective := by
  unfold makeGemmVoltaABLayout at h
  split_ifs at h
  · exact (makeGemmVoltaABLayoutCrosswise_valid hs hc h).1.injective
  · exact (makeGemmVoltaALayoutCongruous_valid hs hc h).1.injective
  · exact (makeGemmVoltaBLayoutCongruous_valid hs hc h).1.injective
  · injection h with h; subst h; exact makeGemmABLayoutPadded_injective hs hc (by decide)

theorem makeGemmVoltaABLayout_injective_crosswise :
    ∃ l, makeGemmVoltaABLayout 32 32 true 2 = .ok l ∧ l.Injective :=
  ⟨_, rfl, @makeGemmVoltaABLayout_injective 32 32 2 _ true (by decide) (by decide) rfl⟩

/-- With `kfactor = 2` or rows of multiples of `64`, `makeGemmVoltaABLayout` returns the crosswise
layout, or the congruous layout of its operand, and the layout it returns is valid onto
`[0, stride * continuous)`. -/
theorem makeGemmVoltaABLayout_valid_of_swizzled {isA : Bool} (hs : 0 < stride)
    (hc : 0 < continuous) (hsw : kfactor = 2 ∨ continuous % 64 = 0)
    (h : makeGemmVoltaABLayout stride continuous isA kfactor = .ok l) :
    (kfactor = 2 ∧ makeGemmVoltaABLayoutCrosswise stride continuous = .ok l ∨
      kfactor ≠ 2 ∧ isA = true ∧ makeGemmVoltaALayoutCongruous stride continuous = .ok l ∨
      kfactor ≠ 2 ∧ isA = false ∧ makeGemmVoltaBLayoutCongruous stride continuous = .ok l) ∧
    l.Valid ∧ l.outputShape = .ok [stride * continuous] := by
  unfold makeGemmVoltaABLayout at h
  split_ifs at h with h2 hA hB
  · exact ⟨.inl ⟨h2, h⟩, makeGemmVoltaABLayoutCrosswise_valid hs hc h⟩
  · simp only [Bool.and_eq_true] at hA
    exact ⟨.inr (.inl ⟨h2, hA.1, h⟩), makeGemmVoltaALayoutCongruous_valid hs hc h⟩
  · simp only [Bool.and_eq_true, Bool.not_eq_true'] at hB
    exact ⟨.inr (.inr ⟨h2, hB.1, h⟩), makeGemmVoltaBLayoutCongruous_valid hs hc h⟩
  · have h64 : continuous.tmod 64 = 0 := by
      rw [Int.tmod_eq_emod hc.le (by decide)]; exact hsw.resolve_left h2
    cases isA <;> simp [h64] at hA hB

theorem makeGemmVoltaABLayout_valid_of_swizzled_congruous :
    ∃ l, makeGemmVoltaABLayout 4 64 false 1 = .ok l ∧
      ((1 : Int) = 2 ∧ makeGemmVoltaABLayoutCrosswise 4 64 = .ok l ∨
        (1 : Int) ≠ 2 ∧ false = true ∧ makeGemmVoltaALayoutCongruous 4 64 = .ok l ∨
        (1 : Int) ≠ 2 ∧ false = false ∧ makeGemmVoltaBLayoutCongruous 4 64 = .ok l) ∧
      l.Valid ∧ l.outputShape = .ok [4 * 64] :=
  ⟨_, rfl, @makeGemmVoltaABLayout_valid_of_swizzled 4 64 1 _ false (by decide) (by decide) (by decide) rfl⟩

end Choice

end TileLayout
