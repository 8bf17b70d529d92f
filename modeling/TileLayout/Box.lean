import TileLayout.Expr
import Mathlib.Data.Set.Function
import Mathlib.Data.Finset.Card
import Mathlib.Algebra.BigOperators.Group.List
import Mathlib.Algebra.Group.Action.Defs
import Mathlib.Algebra.Ring.Int.Defs
/-!
# Iteration boxes and exact bounds

Every layout and every loop nest here ranges over a box `Prod [min_i, min_i + extent_i)`.
This module enumerates boxes (so that bounds and bijectivity can be computed), relates the
enumeration to membership, and gives the analyzer's `int_set` its specified meaning: the exact
minimum and maximum of an expression over the bound box.  `bijOn_of_injOn` is the counting
argument every bijectivity proof of the layout calculus ends with.
-/

namespace TileLayout

/-- `Range::FromMinExtent(min, extent)`. -/
structure Range where
  min : Int
  extent : Int
  deriving DecidableEq

/-- `Range(0, extent)`, the domain `make_itervar` gives. -/
def Range.ofExtent (extent : Int) : Range := ⟨0, extent⟩

/-- `v` lies in `[min, min + extent)`. -/
def Range.Contains (r : Range) (v : Int) : Prop := r.min ≤ v ∧ v < r.min + r.extent

instance (r : Range) (v : Int) : Decidable (r.Contains v) :=
  inferInstanceAs (Decidable (_ ∧ _))

/-- `x` is a point of the box spanned by `doms`, one coordinate per range. -/
def InBox (doms : List Range) (x : List Int) : Prop := List.Forall₂ Range.Contains doms x

instance (doms : List Range) (x : List Int) : Decidable (InBox doms x) :=
  inferInstanceAs (Decidable (List.Forall₂ _ _ _))

/-- The box as a set of points. -/
def boxSet (doms : List Range) : Set (List Int) := {x | InBox doms x}

/-- The zero-based box `Prod [0, shape_k)`. -/
def shapeBox (shape : List Int) : List Range := shape.map Range.ofExtent

@[simp] theorem inBox_nil_left {x : List Int} : InBox [] x ↔ x = [] := List.forall₂_nil_left_iff

@[simp] theorem inBox_cons_cons {r : Range} {rs : List Range} {v : Int} {x : List Int} :
    InBox (r :: rs) (v :: x) ↔ r.Contains v ∧ InBox rs x := List.forall₂_cons

@[simp] theorem not_inBox_cons_nil {r : Range} {rs : List Range} : ¬ InBox (r :: rs) [] :=
  fun h => by cases h

theorem InBox.length_eq {doms : List Range} {x : List Int} (h : InBox doms x) :
    x.length = doms.length := (List.Forall₂.length_eq h).symm

theorem inBox_append {a b : List Range} {x y : List Int} (hx : x.length = a.length) :
    InBox (a ++ b) (x ++ y) ↔ InBox a x ∧ InBox b y := by
  induction a generalizing x with
  | nil => simp_all
  | cons r rs ih =>
      cases x with
      | nil => simp at hx
      | cons v x => simp [ih (Nat.succ.inj hx), and_assoc]

theorem inBox_shapeBox_iff {S y : List Int} :
    InBox (shapeBox S) y ↔
      y.length = S.length ∧ ∀ k (h₁ : k < y.length) (h₂ : k < S.length), 0 ≤ y[k] ∧ y[k] < S[k] := by
  rw [InBox, List.forall₂_iff_get]
  simp only [shapeBox, List.length_map, List.get_eq_getElem, List.getElem_map, Range.Contains,
    Range.ofExtent, zero_add, eq_comm (a := S.length)]
  exact and_congr_right fun _ => ⟨fun h k h₁ h₂ => h k h₂ h₁, fun h k h₁ h₂ => h k h₂ h₁⟩

@[simp] theorem contains_ofExtent {e v : Int} : (Range.ofExtent e).Contains v ↔ 0 ≤ v ∧ v < e := by
  simp [Range.ofExtent, Range.Contains]

@[simp] theorem inBox_shapeBox_singleton {s v : Int} : InBox (shapeBox [s]) [v] ↔ 0 ≤ v ∧ v < s := by
  simp [shapeBox]

@[simp] theorem map_extent_shapeBox (S : List Int) : (shapeBox S).map Range.extent = S := by
  simp [shapeBox, Function.comp_def, Range.ofExtent]

/-! ## Enumeration -/

/-- The integers of a range in increasing order. -/
def Range.values (r : Range) : List Int := (List.range r.extent.toNat).map fun k : Nat => r.min + k

/-- Every point of the box, the last coordinate varying fastest. -/
def boxPoints : List Range → List (List Int)
  | [] => [[]]
  | r :: rs => r.values.flatMap fun v => (boxPoints rs).map (v :: ·)

theorem mem_values {r : Range} {v : Int} : v ∈ r.values ↔ r.Contains v := by
  simp only [Range.values, List.mem_map, List.mem_range, Range.Contains]
  constructor
  · rintro ⟨k, hk, rfl⟩
    omega
  · intro h
    exact ⟨(v - r.min).toNat, by omega, by omega⟩

theorem nodup_values (r : Range) : r.values.Nodup :=
  (List.nodup_range _).map fun _ _ h => Int.ofNat_inj.1 (add_left_cancel h)

@[simp] theorem mem_boxPoints {doms : List Range} {x : List Int} :
    x ∈ boxPoints doms ↔ InBox doms x := by
  induction doms generalizing x with
  | nil => simp [boxPoints]
  | cons r rs ih =>
      cases x with
      | nil => simp [boxPoints]
      | cons v x => simp [boxPoints, ih, mem_values]

theorem nodup_boxPoints (doms : List Range) : (boxPoints doms).Nodup := by
  induction doms with
  | nil => simp [boxPoints]
  | cons r rs ih =>
      refine List.nodup_flatMap.2 ⟨fun v _ => ih.map fun _ _ h => List.cons_injective h, ?_⟩
      refine (nodup_values r).pairwise_of_forall_ne fun a _ b _ hab => ?_
      simp only [Function.onFun, List.disjoint_left, List.mem_map]
      rintro _ ⟨x, _, rfl⟩ ⟨y, _, hxy⟩
      exact hab (List.cons.inj hxy).1.symm

/-- The number of points of a box. -/
def boxCard : List Range → Nat
  | [] => 1
  | r :: rs => r.extent.toNat * boxCard rs

theorem boxCard_cons (r : Range) (rs : List Range) :
    boxCard (r :: rs) = r.extent.toNat * boxCard rs := rfl

theorem length_boxPoints (doms : List Range) : (boxPoints doms).length = boxCard doms := by
  induction doms with
  | nil => rfl
  | cons r rs ih =>
      simp only [boxPoints, List.length_flatMap, Function.comp_def, List.length_map, ih,
        List.map_const', List.sum_replicate, Range.values, List.length_range, boxCard_cons,
        smul_eq_mul]

/-! ## Counting -/

/-- An injective map from one box into another at least as large is a bijection onto it. -/
theorem bijOn_of_injOn {A B : List Range} {f : List Int → List Int}
    (hmaps : Set.MapsTo f (boxSet A) (boxSet B)) (hinj : Set.InjOn f (boxSet A))
    (hcard : boxCard B ≤ boxCard A) : Set.BijOn f (boxSet A) (boxSet B) := by
  refine ⟨hmaps, hinj, fun y hy => ?_⟩
  have hsurj := @Finset.surj_on_of_inj_on_of_card_le _ _ (boxPoints A).toFinset
    (boxPoints B).toFinset (fun x _ => f x)
    (fun x hx => by simpa using hmaps (by simpa using hx))
    (fun x₁ x₂ h₁ h₂ h => hinj (by simpa using h₁) (by simpa using h₂) h)
    (by rw [List.toFinset_card_of_nodup (nodup_boxPoints _),
      List.toFinset_card_of_nodup (nodup_boxPoints _), length_boxPoints, length_boxPoints]
        exact hcard) y (by simpa using hy)
  obtain ⟨x, hx, rfl⟩ := hsurj
  exact ⟨x, by simpa using hx, rfl⟩

/-! ## Exact bounds -/

instance intLeAntisymm : Std.Antisymm (fun a b : Int => a ≤ b) := ⟨fun h₁ h₂ => Int.le_antisymm h₁ h₂⟩

/-- The value of an index expression at a point of a layout's input box: input `k` is `var k`. -/
def PrimExpr.valueAt (e : PrimExpr) (x : List Int) : Int :=
  e.eval (fun k => x.getD k 0) Heap.zero

@[simp] theorem valueAt_var (k : Nat) (x : List Int) : (PrimExpr.var k).valueAt x = x.getD k 0 :=
  rfl

@[simp] theorem valueAt_int (n : Int) (x : List Int) : (PrimExpr.int n).valueAt x = n := rfl

@[simp] theorem valueAt_add (a b : PrimExpr) (x : List Int) :
    (PrimExpr.add a b).valueAt x = a.valueAt x + b.valueAt x := rfl

@[simp] theorem valueAt_sub (a b : PrimExpr) (x : List Int) :
    (PrimExpr.sub a b).valueAt x = a.valueAt x - b.valueAt x := rfl

@[simp] theorem valueAt_mul (a b : PrimExpr) (x : List Int) :
    (PrimExpr.mul a b).valueAt x = a.valueAt x * b.valueAt x := rfl

@[simp] theorem valueAt_floorDiv (a b : PrimExpr) (x : List Int) :
    (PrimExpr.floorDiv a b).valueAt x = Int.fdiv (a.valueAt x) (b.valueAt x) := rfl

@[simp] theorem valueAt_floorMod (a b : PrimExpr) (x : List Int) :
    (PrimExpr.floorMod a b).valueAt x = Int.fmod (a.valueAt x) (b.valueAt x) := rfl

/-- `analyzer.int_set(e)` with the box's variables bound: the minimum and the maximum of `e`
over the box, which the analyzer is specified to compute exactly; `none` for an empty box. -/
def intSet (doms : List Range) (e : PrimExpr) : Option (Int × Int) :=
  match ((boxPoints doms).map e.valueAt).min?, ((boxPoints doms).map e.valueAt).max? with
  | some lo, some hi => some (lo, hi)
  | _, _ => none

theorem intSet_eq_some {doms : List Range} {e : PrimExpr} {lo hi : Int} :
    intSet doms e = some (lo, hi) ↔
      (∃ x, InBox doms x ∧ e.valueAt x = lo) ∧ (∃ x, InBox doms x ∧ e.valueAt x = hi) ∧
        ∀ x, InBox doms x → lo ≤ e.valueAt x ∧ e.valueAt x ≤ hi := by
  have hmin : ((boxPoints doms).map e.valueAt).min? = some lo ↔ _ :=
    List.min?_eq_some_iff le_refl min_choice fun _ _ _ => le_min_iff
  have hmax : ((boxPoints doms).map e.valueAt).max? = some hi ↔ _ :=
    List.max?_eq_some_iff le_refl max_choice fun _ _ _ => max_le_iff
  simp only [List.mem_map, mem_boxPoints, forall_exists_index, and_imp,
    forall_apply_eq_imp_iff₂] at hmin hmax
  constructor
  · intro h
    unfold intSet at h
    split at h
    · rename_i hlo hhi
      cases h
      exact ⟨(hmin.1 hlo).1, (hmax.1 hhi).1, fun x hx => ⟨(hmin.1 hlo).2 x hx, (hmax.1 hhi).2 x hx⟩⟩
    · cases h
  · rintro ⟨hl, hh, hb⟩
    rw [intSet, hmin.2 ⟨hl, fun x hx => (hb x hx).1⟩, hmax.2 ⟨hh, fun x hx => (hb x hx).2⟩]

theorem exists_intSet_eq_some {doms : List Range} {x : List Int} (e : PrimExpr)
    (hx : InBox doms x) : ∃ lo hi, intSet doms e = some (lo, hi) := by
  have hmem := List.mem_map_of_mem e.valueAt (mem_boxPoints.2 hx)
  obtain ⟨lo, hlo⟩ := Option.isSome_iff_exists.1 (List.isSome_min?_of_mem hmem)
  obtain ⟨hi, hhi⟩ := Option.isSome_iff_exists.1 (List.isSome_max?_of_mem hmem)
  exact ⟨lo, hi, by rw [intSet, hlo, hhi]⟩

end TileLayout
