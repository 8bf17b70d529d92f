import TileLayout.Fragment
import TileLayout.Radix
import Mathlib.Tactic.Ring
/-!
# What `Repeat` and `Replicate` compute

Spec lemmas for the two growth operations of the fragment calculus: the result of each as a
record, and the value of its index and thread maps at every point in terms of the original
fragment.  A point of the repeated box splits coordinatewise into the original coordinate
(`modPoint`, the `FloorMod` of the source) and the tile digits (`divPoint`); the tile number is
their mixed-radix value in the order `lower_dim_first` selects.
-/

namespace TileLayout

/-- Coordinatewise `FloorMod(x_i, shape_i)`. -/
def modPoint (x shape : List Int) : List Int := List.zipWith Int.fmod x shape

/-- Coordinatewise `FloorDiv(x_i, shape_i)`. -/
def divPoint (x shape : List Int) : List Int := List.zipWith Int.fdiv x shape

@[simp] theorem length_modPoint (x shape : List Int) :
    (modPoint x shape).length = min x.length shape.length := List.length_zipWith _ _ _

@[simp] theorem length_divPoint (x shape : List Int) :
    (divPoint x shape).length = min x.length shape.length := List.length_zipWith _ _ _

theorem fmod_mem (a : Int) {s : Int} (hs : 0 < s) : 0 ≤ Int.fmod a s ∧ Int.fmod a s < s :=
  ⟨Int.fmod_nonneg' _ hs, Int.fmod_lt_of_pos _ hs⟩

theorem fdiv_fmod_self (a : Int) {s : Int} (hs : 0 < s) : Int.fdiv (Int.fmod a s) s = 0 := by
  rw [Int.fdiv_eq_ediv _ hs.le]
  exact Int.ediv_eq_zero_of_lt (fmod_mem a hs).1 (fmod_mem a hs).2

theorem getElem?_append_of_length_le {x rest : List Int} {k : Nat} (hk : x.length ≤ k) :
    (x ++ rest)[k]? = rest[k - x.length]? := List.getElem?_append_right hk

theorem valueAt_subst_repeatVmap {x shape : List Int} (rest : List Int)
    (hx : x.length = shape.length) (e : PrimExpr) :
    (e.subst (repeatVmap shape)).valueAt (x ++ rest) = e.valueAt (modPoint x shape ++ rest) := by
  unfold PrimExpr.valueAt
  rw [PrimExpr.eval_subst]
  congr 1
  funext k
  simp only [substEnv, repeatVmap]
  by_cases hk : k < shape.length
  · have hkx : k < x.length := hx ▸ hk
    have hmod : (modPoint x shape ++ rest)[k]? = some (Int.fmod x[k] shape[k]) := by
      rw [List.getElem?_append_left (by simp [hx, hk])]
      simp [modPoint, List.getElem?_zipWith, List.getElem?_eq_getElem hkx,
        List.getElem?_eq_getElem hk]
    simp [PrimExpr.eval, List.getElem?_eq_getElem hk, List.getElem?_append_left hkx,
      List.getElem?_eq_getElem hkx, hmod]
  · have hk' : shape.length ≤ k := by omega
    simp [List.getElem?_eq_none hk', getElem?_append_of_length_le (show x.length ≤ k by omega),
      getElem?_append_of_length_le (show (modPoint x shape).length ≤ k by simp [hx, hk']), hx]

/-- Substituting only the variable after a point's coordinates evaluates the expression with that
coordinate replaced by the value of its image. -/
theorem valueAt_subst_last {x : List Int} {n : Nat} (hx : x.length = n) {s : PrimExpr}
    (r : Int) (e : PrimExpr) :
    (e.subst fun k => if k = n then some s else none).valueAt (x ++ [r]) =
      e.valueAt (x ++ [s.valueAt (x ++ [r])]) := by
  unfold PrimExpr.valueAt
  rw [PrimExpr.eval_subst]
  congr 1
  funext k
  simp only [substEnv]
  by_cases hk : k = n
  · subst hk
    simp [List.getElem?_append_right (le_of_eq hx), hx]
  · rcases Nat.lt_or_gt_of_ne hk with hlt | hgt
    · simp [hk, List.getElem?_append_left (hx ▸ hlt)]
    · have hnone : ∀ v : Int, [v][k - x.length]? = none :=
        fun v => List.getElem?_eq_none (by simp; omega)
      simp [hk, List.getElem?_append_right (show x.length ≤ k by omega), hnone]

/-- The loop building `repeats_index` accumulates the mixed-radix value of the digits it visits. -/
theorem valueAt_foldl_repeatsIndexStep (shape repeats : List Int) (pt : List Int) :
    ∀ (order : List Nat) (acc : PrimExpr × PrimExpr),
      (order.foldl (repeatsIndexStep shape repeats) acc).1.valueAt pt =
          acc.1.valueAt pt + acc.2.valueAt pt *
            mixedRadix (order.map fun i => (Int.fdiv (pt.getD i 0) (shape.getD i 0),
              repeats.getD i 0)) ∧
        (order.foldl (repeatsIndexStep shape repeats) acc).2.valueAt pt =
          acc.2.valueAt pt * (order.map fun i => repeats.getD i 0).prod
  | [], acc => by simp [mixedRadix]
  | i :: order, acc => by
      obtain ⟨h1, h2⟩ := valueAt_foldl_repeatsIndexStep shape repeats pt order
        (repeatsIndexStep shape repeats acc i)
      rw [List.foldl_cons, h1, h2]
      simp only [repeatsIndexStep, valueAt_add, valueAt_mul, valueAt_floorDiv, valueAt_var,
        valueAt_int, List.map_cons, mixedRadix, List.prod_cons]
      constructor <;> ring

theorem mem_repeatOrder {n i : Nat} {ldf : Bool} : i ∈ repeatOrder n ldf ↔ i < n := by
  cases ldf <;> simp [repeatOrder]

theorem getD_divPoint {x shape : List Int} {i : Nat} (hx : i < x.length) (hs : i < shape.length) :
    (divPoint x shape).getD i 0 = Int.fdiv (x.getD i 0) (shape.getD i 0) := by
  simp [divPoint, List.getElem?_zipWith, List.getElem?_eq_getElem hx, List.getElem?_eq_getElem hs]

/-- `repeats_index` at a point is the mixed-radix value of its tile digits. -/
theorem valueAt_repeatsIndex {x shape : List Int} (repeats rest : List Int) (ldf : Bool)
    (hx : x.length = shape.length) :
    (repeatsIndex shape repeats ldf).valueAt (x ++ rest) =
      mixedRadix (digitsAt (repeatOrder shape.length ldf) (divPoint x shape) repeats) := by
  rw [repeatsIndex, (valueAt_foldl_repeatsIndexStep _ _ _ _ _).1]
  simp only [valueAt_int, zero_add, one_mul, digitsAt]
  congr 1
  refine List.map_congr_left fun i hi => ?_
  have hi' := mem_repeatOrder.1 hi
  rw [getD_divPoint (hx ▸ hi') hi']
  simp [List.getElem?_append_left (hx ▸ hi' : i < x.length)]

theorem map_getD_range (c : List Int) : (List.range c.length).map (fun i => c.getD i 0) = c := by
  refine List.ext_getElem (by simp) fun i h₁ h₂ => ?_
  simp [List.getElem?_eq_getElem h₂]

theorem prod_map_repeatOrder (c : List Int) (ldf : Bool) :
    ((repeatOrder c.length ldf).map fun i => c.getD i 0).prod = c.prod := by
  cases ldf <;> simp only [repeatOrder, List.map_reverse, List.prod_reverse, map_getD_range,
    Bool.false_eq_true, if_true, if_false]

namespace Fragment

/-- The tile number `repeats_index` of an input point of a repeated fragment. -/
def tileIndex (F : Fragment) (repeats : List Int) (ldf : Bool) (x : List Int) : Int :=
  mixedRadix (digitsAt (repeatOrder F.inputDim ldf) (divPoint x F.inputShape) repeats)

theorem tileIndex_bounds {F : Fragment} {c x : List Int} (ldf : Bool) (hc : c.length = F.inputDim)
    (hq : InBox (shapeBox c) (divPoint x F.inputShape)) :
    0 ≤ F.tileIndex c ldf x ∧ F.tileIndex c ldf x < c.prod := by
  have hdig : DigitsIn (digitsAt (repeatOrder F.inputDim ldf) (divPoint x F.inputShape) c) :=
    digitsIn_digitsAt hq fun i hi => hc ▸ mem_repeatOrder.1 hi
  have h := mixedRadix_bounds hdig
  refine ⟨h.1, h.2.trans_le (le_of_eq ?_)⟩
  rw [digitsAt, List.map_map]
  show ((repeatOrder F.inputDim ldf).map fun i => c.getD i 0).prod = c.prod
  rw [← hc, prod_map_repeatOrder]

/-- The tile number of a two-dimensional point: its first digit varies fastest unless
`lower_dim_first`. -/
theorem tileIndex_pair {F : Fragment} {s₀ s₁ c₀ c₁ x₀ x₁ : Int} (ldf : Bool)
    (hS : F.inputShape = [s₀, s₁]) :
    F.tileIndex [c₀, c₁] ldf [x₀, x₁] =
      if ldf then Int.fdiv x₁ s₁ + c₁ * Int.fdiv x₀ s₀ else Int.fdiv x₀ s₀ + c₀ * Int.fdiv x₁ s₁ := by
  have hn : F.inputDim = 2 := by rw [← length_inputShape, hS]; rfl
  cases ldf <;> simp [tileIndex, hn, hS, digitsAt, repeatOrder, divPoint, mixedRadix, List.range_succ]

theorem divPoint_eq_of_tileIndex_eq {F : Fragment} {c x y : List Int} {ldf : Bool}
    (hc : c.length = F.inputDim) (hx : InBox (shapeBox c) (divPoint x F.inputShape))
    (hy : InBox (shapeBox c) (divPoint y F.inputShape))
    (heq : F.tileIndex c ldf x = F.tileIndex c ldf y) :
    divPoint x F.inputShape = divPoint y F.inputShape :=
  eq_of_mixedRadix_digitsAt_eq hx hy (fun _ => hc ▸ mem_repeatOrder) heq

/-- `Repeat(repeats, true, lower_dim_first)`: the tile number is added to the thread. -/
def repeatOnThread (F : Fragment) (repeats : List Int) (ldf : Bool) (T : Int) : Fragment :=
  ⟨repeatRanges F.forwardVar repeats, F.forwardIndex.map (·.subst (repeatVmap F.inputShape)),
    .add (F.forwardThread.subst (repeatVmap F.inputShape))
      (.mul (.int T) (repeatsIndex F.inputShape repeats ldf)),
    F.threadReplicate⟩

/-- `Repeat(repeats, false, lower_dim_first)`: the tile number is added to the only index. -/
def repeatOnIndex (F : Fragment) (repeats : List Int) (ldf : Bool) (L : Int) : Fragment :=
  ⟨repeatRanges F.forwardVar repeats,
    [.add ((F.forwardIndex.getD 0 (.int 0)).subst (repeatVmap F.inputShape))
      (.mul (.int L) (repeatsIndex F.inputShape repeats ldf))],
    F.forwardThread.subst (repeatVmap F.inputShape), F.threadReplicate⟩

theorem repeat_true_eq {F : Fragment} {c : List Int} {T : Int} (ldf : Bool)
    (hc : c.length = F.inputDim) (hT : F.threadExtent = .ok T) (h0 : F.threadReplicate.min = 0) :
    F.repeat c true ldf = .ok (F.repeatOnThread c ldf T) := by
  simp [Fragment.repeat, hc, hT, Fragment.make, h0, icheck, repeatOnThread, bind,
    Except.bind, pure, Except.pure]

theorem repeat_false_eq {F : Fragment} {c : List Int} {L : Int} (ldf : Bool)
    (hc : c.length = F.inputDim) (hL : F.outputShape = .ok [L]) (h0 : F.threadReplicate.min = 0) :
    F.repeat c false ldf = .ok (F.repeatOnIndex c ldf L) := by
  have hdim : F.outputDim = 1 := by
    simpa [outputDim] using (List.Forall₂.length_eq (mapM_eq_ok_iff.1 hL))
  simp [Fragment.repeat, hc, hL, hdim, Fragment.make, h0, icheck, repeatOnIndex, bind,
    Except.bind, pure, Except.pure]

theorem indexAt_repeatOnThread (F : Fragment) (c : List Int) (ldf : Bool) (T : Int)
    {x : List Int} (r : Int) (hx : x.length = F.inputDim) :
    (F.repeatOnThread c ldf T).indexAt x r = F.indexAt (modPoint x F.inputShape) r := by
  have hx' : x.length = F.inputShape.length := hx.trans (by simp [inputShape, inputDim])
  simp [indexAt, repeatOnThread, valueAt_subst_repeatVmap [r] hx']

theorem threadAt_repeatOnThread (F : Fragment) (c : List Int) (ldf : Bool) (T : Int)
    {x : List Int} (r : Int) (hx : x.length = F.inputDim) :
    (F.repeatOnThread c ldf T).threadAt x r =
      F.threadAt (modPoint x F.inputShape) r + T * F.tileIndex c ldf x := by
  have hx' : x.length = F.inputShape.length := hx.trans (by simp [inputShape, inputDim])
  have hn : F.inputShape.length = F.inputDim := by simp [inputShape, inputDim]
  simp only [threadAt, repeatOnThread, valueAt_add, valueAt_mul, valueAt_int,
    valueAt_subst_repeatVmap [r] hx', tileIndex, valueAt_repeatsIndex c [r] ldf hx', hn]

theorem indexAt_repeatOnIndex (F : Fragment) (c : List Int) (ldf : Bool) (L : Int)
    {x : List Int} (r : Int) (hx : x.length = F.inputDim) :
    (F.repeatOnIndex c ldf L).indexAt x r =
      [(F.forwardIndex.getD 0 (.int 0)).valueAt (modPoint x F.inputShape ++ [r]) +
        L * F.tileIndex c ldf x] := by
  have hx' : x.length = F.inputShape.length := hx.trans (by simp [inputShape, inputDim])
  have hn : F.inputShape.length = F.inputDim := by simp [inputShape, inputDim]
  simp only [indexAt, repeatOnIndex, List.map_cons, List.map_nil, valueAt_add, valueAt_mul,
    valueAt_int, valueAt_subst_repeatVmap [r] hx', tileIndex, valueAt_repeatsIndex c [r] ldf hx',
    hn]

theorem threadAt_repeatOnIndex (F : Fragment) (c : List Int) (ldf : Bool) (L : Int)
    {x : List Int} (r : Int) (hx : x.length = F.inputDim) :
    (F.repeatOnIndex c ldf L).threadAt x r = F.threadAt (modPoint x F.inputShape) r := by
  have hx' : x.length = F.inputShape.length := hx.trans (by simp [inputShape, inputDim])
  simp [threadAt, repeatOnIndex, valueAt_subst_repeatVmap [r] hx']

/-- `Replicate(repeats)` on a fragment whose `ThreadExtent()` is `T`. -/
def replicateWith (F : Fragment) (repeats T : Int) : Fragment :=
  ⟨F.forwardVar, F.forwardIndex,
    .add (F.forwardThread.subst (replicateVmap F.inputDim F.replicateExtent))
      (.mul (.int T) (.floorDiv (.var F.inputDim) (.int F.replicateExtent))),
    Range.ofExtent (F.replicateExtent * repeats)⟩

theorem replicate_eq {F : Fragment} {repeats T : Int} (hn : 1 ≤ repeats)
    (hT : F.threadExtent = .ok T) : F.replicate repeats = .ok (F.replicateWith repeats T) := by
  simp [Fragment.replicate, hn, hT, Fragment.make, icheck, replicateWith, Range.ofExtent, bind,
    Except.bind, pure, Except.pure]

theorem indexAt_replicateWith (F : Fragment) (repeats T : Int) (x : List Int) (r : Int) :
    (F.replicateWith repeats T).indexAt x r = F.indexAt x r := rfl

theorem threadAt_replicateWith (F : Fragment) (repeats T : Int) {x : List Int} (r : Int)
    (hx : x.length = F.inputDim) :
    (F.replicateWith repeats T).threadAt x r =
      F.threadAt x (Int.fmod r F.replicateExtent) + T * Int.fdiv r F.replicateExtent := by
  have hv : replicateVmap F.inputDim F.replicateExtent = fun k => if k = F.inputDim then
      some (.floorMod (.var F.inputDim) (.int F.replicateExtent)) else none := rfl
  simp only [threadAt, replicateWith, hv, valueAt_add, valueAt_mul, valueAt_int,
    valueAt_floorDiv, valueAt_var, valueAt_subst_last hx, valueAt_floorMod]
  simp [List.getElem?_append_right (le_of_eq hx), hx]

end Fragment

end TileLayout
