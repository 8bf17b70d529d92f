import TileLayout.Valid
import Mathlib.Algebra.Order.BigOperators.GroupWithZero.List
import Mathlib.Algebra.Order.Ring.Int
/-!
# Flattened index

`LayoutNode::GetFlattenedIndice()` folds the outputs of a layout into one offset with a stride
loop from the last output to the first (`result += forward_index_[i] * stride; stride *=
shape[i]`), the strides coming from `OutputShape()`.  Its value is the row-major offset of the
output point, last output fastest (`getFlattenedIndice_rowMajor`).  The row-major offset is a
bijection from `Prod [0, S)` onto `[0, Π S)` (`rowMajorOffset_bijOn`), so a layout that is a
bijection onto its output box flattens to a bijection onto `[0, Π OutputShape())`.
-/

namespace TileLayout

/-- One round of the stride loop on `(forward_index_[i], shape[i])`: the index at the current
stride is added to the result, and the stride grows by the extent. -/
def flattenStep (p : PrimExpr × Int) (acc : PrimExpr × PrimExpr) : PrimExpr × PrimExpr :=
  (.add acc.1 (.mul p.1 acc.2), .mul acc.2 (.int p.2))

/-- `LayoutNode::GetFlattenedIndice()`: the stride loop from the last output to the first,
starting from `result = 0, stride = 1`; `Simplify` is the identity here. -/
def Layout.getFlattenedIndice (l : Layout) : Except String PrimExpr := do
  let shape ← l.outputShape
  pure ((l.forwardIndex.zip shape).foldr flattenStep (.int 0, .int 1)).1

/-- The row-major offset of a point `y` of `Prod [0, S)`: `Σ_k y_k * Π_{k' > k} S_{k'}`. -/
def rowMajorOffset (S y : List Int) : Int :=
  ((List.range y.length).map fun k => y.getD k 0 * (S.drop (k + 1)).prod).sum

@[simp] theorem rowMajorOffset_nil (S : List Int) : rowMajorOffset S [] = 0 := rfl

/-- The first coordinate of the point moves the offset by the product of the later extents. -/
@[simp] theorem rowMajorOffset_cons (s v : Int) (S y : List Int) :
    rowMajorOffset (s :: S) (v :: y) = v * S.prod + rowMajorOffset S y := by
  simp [rowMajorOffset, List.range_succ_eq_map, List.map_map, Function.comp_def]

/-- The stride loop over outputs `idx` and extents `S` computes the row-major offset of the
output values, and the stride ends at `Π S`. -/
theorem valueAt_foldr_flattenStep (x : List Int) : ∀ (idx : List PrimExpr) (S : List Int),
    idx.length = S.length →
      ((idx.zip S).foldr flattenStep (.int 0, .int 1)).1.valueAt x =
          rowMajorOffset S (idx.map (·.valueAt x)) ∧
        ((idx.zip S).foldr flattenStep (.int 0, .int 1)).2.valueAt x = S.prod
  | [], [], _ => ⟨rfl, rfl⟩
  | e :: idx, s :: S, h => by
      obtain ⟨h₁, h₂⟩ := valueAt_foldr_flattenStep x idx S (Nat.succ.inj h)
      simp only [List.zip_cons_cons, List.foldr_cons, flattenStep, valueAt_add, valueAt_mul,
        valueAt_int, h₁, h₂, List.map_cons, rowMajorOffset_cons, List.prod_cons]
      constructor <;> ring
  | [], _ :: _, h | _ :: _, [], h => absurd h (by simp)

/-! ## The row-major offset on a box -/

section RowMajor

theorem rowMajorOffset_mem : ∀ {S y : List Int}, InBox (shapeBox S) y →
    0 ≤ rowMajorOffset S y ∧ rowMajorOffset S y < S.prod
  | [], [], _ => ⟨le_rfl, Int.one_pos⟩
  | s :: S, v :: y, h => by
      obtain ⟨hv, hy⟩ := inBox_cons_cons.1 h
      have := add_mul_bounds (rowMajorOffset_mem hy) (contains_ofExtent.1 hv)
      rwa [rowMajorOffset_cons, List.prod_cons, mul_comm v, mul_comm s, add_comm]
  | [], _ :: _, h | _ :: _, [], h => by cases h

theorem rowMajorOffset_injOn : ∀ {S y y' : List Int}, InBox (shapeBox S) y →
    InBox (shapeBox S) y' → rowMajorOffset S y = rowMajorOffset S y' → y = y'
  | [], [], [], _, _, _ => rfl
  | s :: S, v :: y, v' :: y', h, h', heq => by
      obtain ⟨-, hy⟩ := inBox_cons_cons.1 h
      obtain ⟨-, hy'⟩ := inBox_cons_cons.1 h'
      rw [rowMajorOffset_cons, rowMajorOffset_cons, add_comm, mul_comm, add_comm (v' * _),
        mul_comm v'] at heq
      obtain ⟨hr, rfl⟩ := eq_of_add_mul_eq (rowMajorOffset_mem hy) (rowMajorOffset_mem hy') heq
      rw [rowMajorOffset_injOn hy hy' hr]
  | [], _ :: _, _, h, _, _ | _ :: _, [], _, h, _, _ => by cases h
  | [], [], _ :: _, _, h, _ | _ :: _, _ :: _, [], _, h, _ => by cases h

theorem rowMajorOffset_surjOn : ∀ {S : List Int}, (∀ s ∈ S, 0 < s) → ∀ n, 0 ≤ n → n < S.prod →
    ∃ y, InBox (shapeBox S) y ∧ rowMajorOffset S y = n
  | [], _, n, h₀, h₁ => ⟨[], by simp [shapeBox], by simp at h₁ ⊢; omega⟩
  | s :: S, hS, n, h₀, h₁ => by
      have hP : 0 < S.prod := List.prod_pos fun t ht => hS t (List.mem_cons_of_mem _ ht)
      obtain ⟨y, hy, hval⟩ := rowMajorOffset_surjOn (fun t ht => hS t (List.mem_cons_of_mem _ ht))
        (n % S.prod) (Int.emod_nonneg _ hP.ne') (Int.emod_lt_of_pos _ hP)
      rw [List.prod_cons] at h₁
      refine ⟨n / S.prod :: y, inBox_cons_cons.2 ⟨contains_ofExtent.2 ⟨Int.ediv_nonneg h₀ hP.le,
        Int.ediv_lt_of_lt_mul hP h₁⟩, hy⟩, ?_⟩
      rw [rowMajorOffset_cons, hval, mul_comm, Int.ediv_add_emod]

/-- On `Prod [0, S)` with positive extents, the row-major offset is a bijection onto
`[0, Π S)`. -/
theorem rowMajorOffset_bijOn {S : List Int} (hS : ∀ s ∈ S, 0 < s) :
    Set.BijOn (rowMajorOffset S) (boxSet (shapeBox S)) (Set.Ico 0 S.prod) :=
  ⟨fun _ hy => rowMajorOffset_mem hy, fun _ hy _ hy' h => rowMajorOffset_injOn hy hy' h,
    fun n ⟨h₀, h₁⟩ => rowMajorOffset_surjOn hS n h₀ h₁⟩

end RowMajor

/-! ## The flattened index of a layout -/

theorem getFlattenedIndice_eq_ok {l : Layout} {S : List Int} (hS : l.outputShape = .ok S) :
    l.getFlattenedIndice = .ok ((l.forwardIndex.zip S).foldr flattenStep (.int 0, .int 1)).1 := by
  simp [Layout.getFlattenedIndice, hS, bind, Except.bind, pure, Except.pure]

/-- The flattened index evaluates to the row-major offset of the output point. -/
theorem valueAt_getFlattenedIndice {l : Layout} {S : List Int} (hS : l.outputShape = .ok S) :
    ∃ e, l.getFlattenedIndice = .ok e ∧ ∀ x, e.valueAt x = rowMajorOffset S (l.apply x) :=
  ⟨_, getFlattenedIndice_eq_ok hS, fun x => (valueAt_foldr_flattenStep x _ _
    (List.Forall₂.length_eq (Layout.outputShape_eq_ok_iff.1 hS))).1⟩

/-- `GetFlattenedIndice()` returns the row-major offset of the output point, last output fastest,
with the strides of `OutputShape()`; when the layout is a bijection onto `Prod [0,
OutputShape())`, the flattened index is a bijection from the input box onto `[0, Π
OutputShape())`. -/
theorem getFlattenedIndice_rowMajor {l : Layout} {S : List Int} (hS : l.outputShape = .ok S) :
    ∃ e, l.getFlattenedIndice = .ok e ∧ (∀ x, e.valueAt x = rowMajorOffset S (l.apply x)) ∧
      (Set.BijOn l.apply (boxSet l.forwardVar) (boxSet (shapeBox S)) →
        Set.BijOn e.valueAt (boxSet l.forwardVar) (Set.Ico 0 S.prod)) := by
  have hlen : l.forwardIndex.length = S.length :=
    List.Forall₂.length_eq (Layout.outputShape_eq_ok_iff.1 hS)
  have hval : ∀ x, ((l.forwardIndex.zip S).foldr flattenStep (.int 0, .int 1)).1.valueAt x =
      rowMajorOffset S (l.apply x) := fun x => (valueAt_foldr_flattenStep x _ _ hlen).1
  refine ⟨_, getFlattenedIndice_eq_ok hS, hval, fun hbij => ?_⟩
  have hpos : ∀ s ∈ S, 0 < s := fun s hs => by
    obtain ⟨e, -, he⟩ := exists_of_forall₂_of_mem (Layout.outputShape_eq_ok_iff.1 hS) hs
    exact outputExtent_pos he
  exact ((rowMajorOffset_bijOn hpos).comp hbij).congr fun x _ => (hval x).symm

/-- A transposing layout of `2 × 3` inputs, with output shape `[3, 2]`. -/
theorem getFlattenedIndice_rowMajor_transpose :
    ∃ e, Layout.getFlattenedIndice ⟨[.ofExtent 2, .ofExtent 3], [.var 1, .var 0]⟩ = .ok e ∧
      (∀ x, e.valueAt x =
        rowMajorOffset [3, 2] (Layout.apply ⟨[.ofExtent 2, .ofExtent 3], [.var 1, .var 0]⟩ x)) ∧
      (Set.BijOn (Layout.apply ⟨[.ofExtent 2, .ofExtent 3], [.var 1, .var 0]⟩)
          (boxSet [.ofExtent 2, .ofExtent 3]) (boxSet (shapeBox [3, 2])) →
        Set.BijOn e.valueAt (boxSet [.ofExtent 2, .ofExtent 3]) (Set.Ico 0 ([3, 2] : List Int).prod)) :=
  getFlattenedIndice_rowMajor rfl

end TileLayout
