import TileLayout.Stmt
import TileLayout.Layout
/-!
# Copy lowering

`Copy::Canonialize` lowers a `tl::Copy` of two buffer regions into a nest of parallel loops, one
per src range of extent other than `1`, around one store.  `MakeIndices` puts the loop variables
on top of the range minimums at the ranges of extent other than `1`, and the bounds conditions
the analyzer cannot prove guard the load and the store; `MakeIterVars`, `MakeIndices` (twice)
and `MakePredicate` each keep their own counter over those ranges.

`canonialize_exec`: one store attempt per offset of the src box, guarded by the dst bounds, of
the src element converted to the dst type, or of `0` out of bounds.  With the same ranges on both
sides, as `CheckRangeEqual` asks, every store lies in the dst region
(`canonialize_stores_in_region`); the constructor ignores that check, so a narrower dst region is
written past its end (`copy_writes_outside_region`).  `CanProve` is a parameter.
-/

namespace TileLayout

/-- A `tir::Buffer` as the copy uses it: its data variable, element type and shape. -/
structure Buffer where
  data : Nat
  dtype : DataType
  shape : List PrimExpr

/-- A `tvm::Range` of expressions, as `RegionOp::GetRanges()` returns them. -/
structure RangeExpr where
  min : PrimExpr
  extent : PrimExpr

/-- `is_one(e)`: the integer constant `1`. -/
def isOne : PrimExpr → Bool
  | .int n => n == 1
  | _ => false

theorem eq_of_isOne {e : PrimExpr} (h : isOne e = true) : e = .int 1 := by
  unfold isOne at h
  split at h
  · rw [beq_iff_eq.1 h]
  · cases h

mutual
/-- `StructuralEqual` on expressions: the same node with structurally equal children. -/
def PrimExpr.structuralEqual : PrimExpr → PrimExpr → Bool
  | .var v, b => match b with | .var w => v == w | _ => false
  | .int n, b => match b with | .int m => n == m | _ => false
  | .add a c, b => match b with | .add a' c' => a.structuralEqual a' && c.structuralEqual c' | _ => false
  | .sub a c, b => match b with | .sub a' c' => a.structuralEqual a' && c.structuralEqual c' | _ => false
  | .mul a c, b => match b with | .mul a' c' => a.structuralEqual a' && c.structuralEqual c' | _ => false
  | .floorDiv a c, b => match b with
    | .floorDiv a' c' => a.structuralEqual a' && c.structuralEqual c' | _ => false
  | .floorMod a c, b => match b with
    | .floorMod a' c' => a.structuralEqual a' && c.structuralEqual c' | _ => false
  | .lt a c, b => match b with | .lt a' c' => a.structuralEqual a' && c.structuralEqual c' | _ => false
  | .ge a c, b => match b with | .ge a' c' => a.structuralEqual a' && c.structuralEqual c' | _ => false
  | .eq a c, b => match b with | .eq a' c' => a.structuralEqual a' && c.structuralEqual c' | _ => false
  | .and a c, b => match b with | .and a' c' => a.structuralEqual a' && c.structuralEqual c' | _ => false
  | .ifThenElse c t e, b => match b with
    | .ifThenElse c' t' e' => c.structuralEqual c' && t.structuralEqual t' && e.structuralEqual e'
    | _ => false
  | .cast d v, b => match b with | .cast d' v' => d == d' && v.structuralEqual v' | _ => false
  | .bufferLoad buf idx, b => match b with
    | .bufferLoad buf' idx' => buf == buf' && PrimExpr.structuralEqualList idx idx' | _ => false

def PrimExpr.structuralEqualList : List PrimExpr → List PrimExpr → Bool
  | [], [] => true
  | e :: es, e' :: es' => e.structuralEqual e' && PrimExpr.structuralEqualList es es'
  | _, _ => false
end

/-- `StructuralEqual` on arrays of ranges. -/
def RangeExpr.structuralEqualList : List RangeExpr → List RangeExpr → Bool
  | [], [] => true
  | r :: rs, r' :: rs' => r.min.structuralEqual r'.min && r.extent.structuralEqual r'.extent &&
      RangeExpr.structuralEqualList rs rs'
  | _, _ => false

mutual
theorem PrimExpr.eq_of_structuralEqual : (a b : PrimExpr) → a.structuralEqual b = true → a = b
  | .var _, b, h | .int _, b, h => by
      cases b <;> simp_all [PrimExpr.structuralEqual]
  | .add a₁ a₂, b, h | .sub a₁ a₂, b, h | .mul a₁ a₂, b, h | .floorDiv a₁ a₂, b, h
  | .floorMod a₁ a₂, b, h | .lt a₁ a₂, b, h | .ge a₁ a₂, b, h | .eq a₁ a₂, b, h
  | .and a₁ a₂, b, h => by
      cases b <;> simp only [PrimExpr.structuralEqual, Bool.and_eq_true, reduceCtorEq,
        Bool.false_eq_true] at h ⊢
      rw [PrimExpr.eq_of_structuralEqual _ _ h.1, PrimExpr.eq_of_structuralEqual _ _ h.2]
  | .ifThenElse c t e, b, h => by
      cases b <;> simp only [PrimExpr.structuralEqual, Bool.and_eq_true, reduceCtorEq,
        Bool.false_eq_true] at h ⊢
      rw [PrimExpr.eq_of_structuralEqual _ _ h.1.1, PrimExpr.eq_of_structuralEqual _ _ h.1.2,
        PrimExpr.eq_of_structuralEqual _ _ h.2]
  | .cast _ v, b, h => by
      cases b <;> simp only [PrimExpr.structuralEqual, Bool.and_eq_true, reduceCtorEq,
        Bool.false_eq_true, beq_iff_eq] at h ⊢
      rw [h.1, PrimExpr.eq_of_structuralEqual _ _ h.2]
  | .bufferLoad _ idx, b, h => by
      cases b <;> simp only [PrimExpr.structuralEqual, Bool.and_eq_true, reduceCtorEq,
        Bool.false_eq_true, beq_iff_eq] at h ⊢
      rw [h.1, PrimExpr.eq_of_structuralEqualList _ _ h.2]

theorem PrimExpr.eq_of_structuralEqualList :
    (es es' : List PrimExpr) → PrimExpr.structuralEqualList es es' = true → es = es'
  | [], [], _ => rfl
  | e :: es, e' :: es', h => by
      rw [PrimExpr.structuralEqualList, Bool.and_eq_true] at h
      rw [PrimExpr.eq_of_structuralEqual _ _ h.1, PrimExpr.eq_of_structuralEqualList _ _ h.2]
  | [], _ :: _, h | _ :: _, [], h => by cases h
end

theorem RangeExpr.eq_of_structuralEqualList :
    (rs rs' : List RangeExpr) → RangeExpr.structuralEqualList rs rs' = true → rs = rs'
  | [], [], _ => rfl
  | ⟨m, e⟩ :: rs, ⟨m', e'⟩ :: rs', h => by
      simp only [RangeExpr.structuralEqualList, Bool.and_eq_true] at h
      rw [PrimExpr.eq_of_structuralEqual _ _ h.1.1, PrimExpr.eq_of_structuralEqual _ _ h.1.2,
        RangeExpr.eq_of_structuralEqualList _ _ h.2]
  | [], _ :: _, h | _ :: _, [], h => by cases h

/-- `tl::Copy`: the source and destination buffers and their regions. -/
structure Copy where
  src : Buffer
  dst : Buffer
  srcRange : List RangeExpr
  dstRange : List RangeExpr

namespace Copy

/-- The ranges of extent other than `1`. -/
def nonUnit (ranges : List RangeExpr) : List RangeExpr := ranges.filter fun rg => !isOne rg.extent

/-- `Copy::CheckRangeEqual()`: the ranges of extent other than `1` of the two sides are
structurally equal. -/
def checkRangeEqual (c : Copy) : Bool :=
  RangeExpr.structuralEqualList (nonUnit c.srcRange) (nonUnit c.dstRange)

/-- `Copy::Copy(args, vmap)` on the regions `RegionOp` reads from the two arguments: it calls
`CheckRangeEqual()` and drops the result, so it builds a `Copy` from every pair of regions. -/
def make (src dst : Buffer) (srcRange dstRange : List RangeExpr) : Copy :=
  ⟨src, dst, srcRange, dstRange⟩

/-- One past every variable the regions and the shapes read: the first number of the new loop
variables. -/
def varBase (c : Copy) : Nat :=
  PrimExpr.varBoundList (c.src.shape ++ c.dst.shape ++
    (c.srcRange ++ c.dstRange).flatMap fun rg => [rg.min, rg.extent])

end Copy

/-- The loop of `MakeIterVars()` from the counter `idx`: a variable over `[0, extent)` for each
range of extent other than `1`. -/
def makeIterVarsFrom (base : Nat) : Nat → List RangeExpr → List (Nat × PrimExpr)
  | _, [] => []
  | idx, rg :: rgs =>
    if isOne rg.extent then makeIterVarsFrom base idx rgs
    else (base + idx, rg.extent) :: makeIterVarsFrom base (idx + 1) rgs

/-- The loop of `MakeIndices()` from the counter `idx`: a range of extent `1` gives its `min`,
another one `min + ivs[idx]`; the counter is returned for the final check. -/
def makeIndicesFrom (ivs : List (Nat × PrimExpr)) :
    Nat → List RangeExpr → Except String (List PrimExpr × Nat)
  | idx, [] => .ok ([], idx)
  | idx, rg :: rgs =>
    if isOne rg.extent then
      (fun (rest, n) => (rg.min :: rest, n)) <$> makeIndicesFrom ivs idx rgs
    else match ivs[idx]? with
      | some (v, _) =>
        (fun (rest, n) => (.add rg.min (.var v) :: rest, n)) <$> makeIndicesFrom ivs (idx + 1) rgs
      | none => .error "IndexError: indexing ivs past its size"

/-- The loop of `MakePredicate()` from the counter `idx` over the ranges and the buffer's
extents: for a range of extent other than `1`, the conditions `min + ivs[idx] < extents[i]` and
`min + ivs[idx] >= 0` that the analyzer cannot prove. -/
def predicateConds (canProve : PrimExpr → Bool) (ivs : List (Nat × PrimExpr)) :
    Nat → List (RangeExpr × PrimExpr) → Except String (List PrimExpr)
  | _, [] => .ok []
  | idx, (rg, extent) :: rest =>
    if isOne rg.extent then predicateConds canProve ivs idx rest
    else match ivs[idx]? with
      | some (v, _) =>
        let upper := PrimExpr.lt (.add rg.min (.var v)) extent
        let lower := PrimExpr.ge (.add rg.min (.var v)) (.int 0)
        (fun conds => (if canProve upper then [] else [upper]) ++
          (if canProve lower then [] else [lower]) ++ conds) <$> predicateConds canProve ivs (idx + 1) rest
      | none => .error "IndexError: indexing ivs past its size"

/-- The end of `MakePredicate()`: none for no condition, else `And(And(c₀, c₁), …)`. -/
def conjunction : List PrimExpr → Option PrimExpr
  | [] => none
  | cond :: rest => some (rest.foldl .and cond)

/-- `if (src_predicate.defined()) value = if_then_else(src_predicate, value, make_zero(...))`. -/
def guardValue : Option PrimExpr → PrimExpr → PrimExpr
  | some p, value => .ifThenElse p value (.int 0)
  | none, value => value

/-- `if (dst_predicate.defined()) body = IfThenElse(dst_predicate, body)`. -/
def guardStore : Option PrimExpr → Stmt → Stmt
  | some p, body => .ifThenElse p body
  | none, body => body

namespace Copy

/-- `src_dst == 0 ? src_range : dst_range`. -/
def rangesOf (c : Copy) (srcDst : Int) : List RangeExpr :=
  if srcDst = 0 then c.srcRange else c.dstRange

/-- `Copy::MakeIterVars()`. -/
def makeIterVars (c : Copy) : List (Nat × PrimExpr) := makeIterVarsFrom c.varBase 0 c.srcRange

/-- `Copy::MakeIndices(ivs, src_dst)`: `0` for the src indices, otherwise the dst ones. -/
def makeIndices (c : Copy) (ivs : List (Nat × PrimExpr)) (srcDst : Int) :
    Except String (List PrimExpr) := do
  let (indices, idx) ← makeIndicesFrom ivs 0 (c.rangesOf srcDst)
  icheck (idx == ivs.length) "idx == ivs.size()"
  pure indices

/-- `Copy::MakePredicate(analyzer, ivs, extents, src_dst)`: the conjunction of the conditions
left, or none. -/
def makePredicate (c : Copy) (canProve : PrimExpr → Bool) (ivs : List (Nat × PrimExpr))
    (extents : List PrimExpr) (srcDst : Int) : Except String (Option PrimExpr) := do
  let ranges := c.rangesOf srcDst
  icheck (extents.length == ranges.length) "extents.size() == ranges.size()"
  let condList ← predicateConds canProve ivs 0 (ranges.zip extents)
  pure (conjunction condList)

/-- `Copy::Canonialize(T, analyzer)`. -/
def canonialize (c : Copy) (canProve : PrimExpr → Bool) : Except String Stmt := do
  let loopVars := c.makeIterVars
  let srcIndices ← c.makeIndices loopVars 0
  let dstIndices ← c.makeIndices loopVars 1
  let srcPredicate ← c.makePredicate canProve loopVars c.src.shape 0
  let dstPredicate ← c.makePredicate canProve loopVars c.dst.shape 1
  let value := PrimExpr.bufferLoad c.src.data srcIndices
  let value := if c.src.dtype ≠ c.dst.dtype then .cast c.dst.dtype value else value
  let value := guardValue srcPredicate value
  let body := guardStore dstPredicate (.bufferStore c.dst.data value dstIndices)
  pure (loopVars.foldr (fun (v, e) body => .forLoop v (.int 0) e .parallel body) body)

end Copy

/-! ## What the lowered nest runs -/

namespace Copy

/-- The extents the nest runs over: the src ranges of extent other than `1`. -/
def extents (c : Copy) (ρ : Nat → Int) (heap : Heap) : List Int :=
  (nonUnit c.srcRange).map (·.extent.eval ρ heap)

end Copy

/-- The index list an offset `o` of the src box names on one side: a range of extent `1` gives
its `min`, another one `min` plus the next coordinate of `o`. -/
def embedOffset (ρ : Nat → Int) (heap : Heap) : List RangeExpr → List Int → List Int
  | [], _ => []
  | rg :: rgs, o =>
    if isOne rg.extent then rg.min.eval ρ heap :: embedOffset ρ heap rgs o
    else (rg.min.eval ρ heap + o.headD 0) :: embedOffset ρ heap rgs o.tail

/-- The bounds `0 ≤ v < shape` at every range of extent other than `1`. -/
def nonUnitInBounds (ρ : Nat → Int) (heap : Heap) : List RangeExpr → List PrimExpr → List Int → Bool
  | rg :: rgs, s :: ss, v :: vs =>
    (isOne rg.extent || decide (0 ≤ v ∧ v < s.eval ρ heap)) && nonUnitInBounds ρ heap rgs ss vs
  | _, _, _ => true

/-- The analyzer proves only bounds conditions that hold in `σ`. -/
def BoundsSound (canProve : PrimExpr → Bool) (heap : Heap) (σ : Nat → Int) : Prop :=
  ∀ (m b : PrimExpr) (v : Nat),
    (canProve (.lt (.add m (.var v)) b) = true → (PrimExpr.lt (.add m (.var v)) b).eval σ heap ≠ 0) ∧
    (canProve (.ge (.add m (.var v)) (.int 0)) = true →
      (PrimExpr.ge (.add m (.var v)) (.int 0)).eval σ heap ≠ 0)

/-- The region of a list of ranges holds an index list: `min_d ≤ index_d < min_d + extent_d` at
every dimension. -/
def inRegion (ρ : Nat → Int) (heap : Heap) : List RangeExpr → List Int → Bool
  | [], [] => true
  | rg :: rgs, i :: is =>
    decide (rg.min.eval ρ heap ≤ i ∧ i < rg.min.eval ρ heap + rg.extent.eval ρ heap) &&
      inRegion ρ heap rgs is
  | _, _ => false

/-- An offset in the box of the extents other than `1` names a point of the region. -/
theorem inRegion_embedOffset (ρ : Nat → Int) (heap : Heap) : ∀ (rgs : List RangeExpr) (o : List Int),
    InBox (shapeBox ((Copy.nonUnit rgs).map (·.extent.eval ρ heap))) o →
      inRegion ρ heap rgs (embedOffset ρ heap rgs o) = true
  | [], o, h => by cases o <;> simp_all [Copy.nonUnit, shapeBox, InBox, embedOffset, inRegion]
  | rg :: rgs, o, h => by
      by_cases hone : isOne rg.extent
      · simp only [Copy.nonUnit, List.filter_cons, hone, Bool.not_true] at h
        simp [embedOffset, hone, inRegion, eq_of_isOne hone, PrimExpr.eval,
          inRegion_embedOffset ρ heap rgs o h]
      · cases o with
        | nil => simp [Copy.nonUnit, hone, shapeBox, InBox] at h
        | cons v o =>
            simp only [Copy.nonUnit, List.filter_cons, hone, Bool.not_false, if_true, List.map_cons,
              shapeBox, InBox, List.forall₂_cons, contains_ofExtent] at h
            simp only [embedOffset, hone, inRegion, List.headD_cons, List.tail_cons,
              inRegion_embedOffset ρ heap rgs o h.2, Bool.and_true, decide_eq_true_eq]
            omega

/-! ### The counters of the four loops -/

theorem map_snd_makeIterVarsFrom (base : Nat) : ∀ (idx : Nat) (rgs : List RangeExpr),
    (makeIterVarsFrom base idx rgs).map (·.2) = (Copy.nonUnit rgs).map (·.extent)
  | _, [] => rfl
  | idx, rg :: rgs => by
      by_cases h : isOne rg.extent <;>
        simp [makeIterVarsFrom, Copy.nonUnit, h, map_snd_makeIterVarsFrom base _ rgs]

theorem map_fst_makeIterVarsFrom (base : Nat) : ∀ (idx : Nat) (rgs : List RangeExpr),
    (makeIterVarsFrom base idx rgs).map (·.1) =
      (List.range (Copy.nonUnit rgs).length).map (base + idx + ·)
  | _, [] => rfl
  | idx, rg :: rgs => by
      by_cases h : isOne rg.extent
      · simp [makeIterVarsFrom, Copy.nonUnit, h, map_fst_makeIterVarsFrom base _ rgs]
      · have := map_fst_makeIterVarsFrom base (idx + 1) rgs
        simp only [Copy.nonUnit] at this
        simp [makeIterVarsFrom, Copy.nonUnit, h, this, List.range_succ_eq_map, Function.comp_def]
        omega

theorem headD_drop (o : List Int) (n : Nat) : (o.drop n).headD 0 = o.getD n 0 := by
  simp [List.headD_eq_head?_getD, List.head?_drop, List.getD_eq_getElem?_getD]

/-- The variable the counter `idx` finds in `ivs` holds the coordinate `idx` of the offset. -/
theorem eval_var_of_getElem? {ivs : List (Nat × PrimExpr)} {idx v : Nat} {e : PrimExpr}
    {σ : Nat → Int} {o : List Int} (hv : ivs[idx]? = some (v, e))
    (hvar : ∀ k (h : k < ivs.length), idx ≤ k → σ ivs[k].1 = o.getD k 0) : σ v = o.getD idx 0 := by
  obtain ⟨hidx, hget⟩ := List.getElem?_eq_some_iff.1 hv
  simpa [hget] using hvar idx hidx le_rfl

section Indices
variable (ivs : List (Nat × PrimExpr)) (heap : Heap) (ρ σ : Nat → Int) (o : List Int)

theorem makeIndicesFrom_ok : ∀ (rgs : List RangeExpr) (idx : Nat),
    idx + (Copy.nonUnit rgs).length ≤ ivs.length →
      ∃ L, makeIndicesFrom ivs idx rgs = .ok (L, idx + (Copy.nonUnit rgs).length)
  | [], idx, _ => ⟨[], rfl⟩
  | rg :: rgs, idx, hlen => by
      by_cases h : isOne rg.extent
      · obtain ⟨L, hL⟩ := makeIndicesFrom_ok rgs idx (by simpa [Copy.nonUnit, h] using hlen)
        exact ⟨rg.min :: L, by rw [makeIndicesFrom, if_pos h, hL]; simp [Copy.nonUnit, h]⟩
      · have hlen' : idx + 1 + (Copy.nonUnit rgs).length ≤ ivs.length := by
          simp [Copy.nonUnit, h] at hlen ⊢; omega
        obtain ⟨L, hL⟩ := makeIndicesFrom_ok rgs (idx + 1) hlen'
        refine ⟨.add rg.min (.var ivs[idx].1) :: L, ?_⟩
        rw [makeIndicesFrom, if_neg h, List.getElem?_eq_getElem (show idx < ivs.length by omega), hL]
        simp [Copy.nonUnit, h]
        omega

/-- The counter the loop returns has moved past every range of extent other than `1`. -/
theorem makeIndicesFrom_count : ∀ (rgs : List RangeExpr) (idx : Nat) {L : List PrimExpr} {n : Nat},
    makeIndicesFrom ivs idx rgs = .ok (L, n) → n = idx + (Copy.nonUnit rgs).length
  | [], idx, L, n, h => by cases h; rfl
  | rg :: rgs, idx, L, n, h => by
      rw [makeIndicesFrom] at h
      split_ifs at h with h1
      · obtain ⟨⟨L', n'⟩, h', heq⟩ := Except.map_eq_ok.1 h
        cases heq
        simpa [Copy.nonUnit, h1] using makeIndicesFrom_count rgs idx h'
      · split at h
        · obtain ⟨⟨L', n'⟩, h', heq⟩ := Except.map_eq_ok.1 h
          cases heq
          have := makeIndicesFrom_count rgs (idx + 1) h'
          simp [Copy.nonUnit, h1] at this ⊢
          omega
        · cases h

theorem evalList_makeIndicesFrom : ∀ (rgs : List RangeExpr) (idx : Nat) {L : List PrimExpr} {n : Nat},
    makeIndicesFrom ivs idx rgs = .ok (L, n) →
    (∀ rg ∈ rgs, rg.min.eval σ heap = rg.min.eval ρ heap) →
    (∀ k (h : k < ivs.length), idx ≤ k → σ ivs[k].1 = o.getD k 0) →
      PrimExpr.evalList σ heap L = embedOffset ρ heap rgs (o.drop idx)
  | [], idx, L, n, h, _, _ => by cases h; rfl
  | rg :: rgs, idx, L, n, h, hmin, hvar => by
      have hrg := hmin rg (List.mem_cons_self _ _)
      have hrgs := fun r hr => hmin r (List.mem_cons_of_mem _ hr)
      by_cases hone : isOne rg.extent
      · rw [makeIndicesFrom, if_pos hone] at h
        obtain ⟨⟨L', n'⟩, hL', heq⟩ := Except.map_eq_ok.1 h
        cases heq
        simp [PrimExpr.evalList, embedOffset, hone, hrg,
          evalList_makeIndicesFrom rgs idx hL' hrgs hvar]
      · rw [makeIndicesFrom, if_neg hone] at h
        split at h
        · rename_i v e hv
          obtain ⟨⟨L', n'⟩, hL', heq⟩ := Except.map_eq_ok.1 h
          cases heq
          simp [PrimExpr.evalList, PrimExpr.eval, embedOffset, hone, hrg, eval_var_of_getElem? hv hvar,
            headD_drop,
            evalList_makeIndicesFrom rgs (idx + 1) hL' hrgs fun k hk hk' => hvar k hk (by omega),
            List.tail_drop]
        · cases h
end Indices

theorem forall_mem_unproved_iff {canProve : PrimExpr → Bool} {c : PrimExpr} {P : PrimExpr → Prop}
    (h : canProve c = true → P c) : (∀ x ∈ (if canProve c then [] else [c]), P x) ↔ P c := by
  by_cases hc : canProve c <;> simp [hc, h]

theorem eval_foldl_and_ne_zero (σ : Nat → Int) (heap : Heap) : ∀ (rest : List PrimExpr) (c : PrimExpr),
    (rest.foldl .and c).eval σ heap ≠ 0 ↔ ∀ x ∈ c :: rest, x.eval σ heap ≠ 0
  | [], c => by simp
  | d :: rest, c => by
      rw [List.foldl_cons, eval_foldl_and_ne_zero σ heap rest]
      simp only [List.mem_cons, forall_eq_or_imp, PrimExpr.eval]
      by_cases h : c.eval σ heap ≠ 0 ∧ d.eval σ heap ≠ 0 <;> simp_all

section Predicate
variable (canProve : PrimExpr → Bool) (ivs : List (Nat × PrimExpr)) (heap : Heap) (ρ σ : Nat → Int)
  (o : List Int)

theorem predicateConds_ok : ∀ (pairs : List (RangeExpr × PrimExpr)) (idx : Nat),
    idx + (Copy.nonUnit (pairs.map (·.1))).length ≤ ivs.length →
      ∃ conds, predicateConds canProve ivs idx pairs = .ok conds
  | [], _, _ => ⟨[], rfl⟩
  | (rg, ext) :: pairs, idx, hlen => by
      by_cases h : isOne rg.extent
      · rw [predicateConds, if_pos h]
        exact predicateConds_ok pairs idx (by simpa [Copy.nonUnit, h] using hlen)
      · have hlen' : idx + 1 + (Copy.nonUnit (pairs.map (·.1))).length ≤ ivs.length := by
          simp [Copy.nonUnit, h] at hlen ⊢; omega
        obtain ⟨conds, hc⟩ := predicateConds_ok pairs (idx + 1) hlen'
        rw [predicateConds, if_neg h, List.getElem?_eq_getElem (show idx < ivs.length by
          simp [Copy.nonUnit, h] at hlen; omega), hc]
        exact ⟨_, rfl⟩

theorem predicateConds_iff : ∀ (pairs : List (RangeExpr × PrimExpr)) (idx : Nat) {conds : List PrimExpr},
    predicateConds canProve ivs idx pairs = .ok conds →
    (∀ p ∈ pairs, p.1.min.eval σ heap = p.1.min.eval ρ heap ∧ p.2.eval σ heap = p.2.eval ρ heap) →
    (∀ k (h : k < ivs.length), idx ≤ k → σ ivs[k].1 = o.getD k 0) → BoundsSound canProve heap σ →
      ((∀ x ∈ conds, x.eval σ heap ≠ 0) ↔ nonUnitInBounds ρ heap (pairs.map (·.1)) (pairs.map (·.2))
        (embedOffset ρ heap (pairs.map (·.1)) (o.drop idx)) = true)
  | [], idx, conds, h, _, _, _ => by cases h; simp [nonUnitInBounds]
  | (rg, ext) :: pairs, idx, conds, h, hpairs, hvar, hsound => by
      obtain ⟨hmin, hext⟩ := hpairs (rg, ext) (List.mem_cons_self _ _)
      have hrest := fun p hp => hpairs p (List.mem_cons_of_mem _ hp)
      by_cases hone : isOne rg.extent
      · rw [predicateConds, if_pos hone] at h
        rw [predicateConds_iff pairs idx h hrest hvar hsound]
        simp [embedOffset, nonUnitInBounds, hone]
      · rw [predicateConds, if_neg hone] at h
        split at h
        · rename_i v e hv
          obtain ⟨tail, htail, rfl⟩ := Except.map_eq_ok.1 h
          have ih := predicateConds_iff pairs (idx + 1) htail hrest
            (fun k hk hk' => hvar k hk (by omega)) hsound
          simp only [List.mem_append, or_imp, forall_and]
          rw [forall_mem_unproved_iff (hsound rg.min ext v).1, forall_mem_unproved_iff (hsound rg.min ext v).2, ih]
          simp only [List.map_cons, embedOffset, hone, nonUnitInBounds, PrimExpr.eval, hmin, hext,
            eval_var_of_getElem? hv hvar, headD_drop, List.tail_drop]
          simp [and_comm]
        · cases h
end Predicate

theorem varBound_le_varBoundList {e : PrimExpr} : ∀ {es : List PrimExpr}, e ∈ es →
    e.varBound ≤ PrimExpr.varBoundList es
  | _ :: _, .head _ => Nat.le_max_left _ _
  | _ :: _, .tail _ h => (varBound_le_varBoundList h).trans (Nat.le_max_right _ _)

section Guard
variable (σ : Nat → Int) (heap : Heap)

/-- The guarded load is the load where every condition holds, and `0` elsewhere. -/
theorem eval_guardValue (conds : List PrimExpr) (value : PrimExpr) :
    (guardValue (conjunction conds) value).eval σ heap =
      if ∀ x ∈ conds, x.eval σ heap ≠ 0 then value.eval σ heap else 0 := by
  cases conds with
  | nil => simp [conjunction, guardValue]
  | cons c rest => simp only [conjunction, guardValue, PrimExpr.eval, ← eval_foldl_and_ne_zero]

/-- The guarded store runs where every condition holds. -/
theorem exec_guardStore (conds : List PrimExpr) (body : Stmt) :
    (guardStore (conjunction conds) body).exec heap σ =
      if ∀ x ∈ conds, x.eval σ heap ≠ 0 then body.exec heap σ else [] := by
  cases conds with
  | nil => simp [conjunction, guardStore]
  | cons c rest => simp only [conjunction, guardStore, Stmt.exec, ← eval_foldl_and_ne_zero]

end Guard

namespace Copy

@[simp] theorem rangesOf_zero (c : Copy) : c.rangesOf 0 = c.srcRange := if_pos rfl

@[simp] theorem rangesOf_one (c : Copy) : c.rangesOf 1 = c.dstRange := if_neg (by decide)

theorem varBound_shape_le (c : Copy) {e : PrimExpr} (h : e ∈ c.src.shape ++ c.dst.shape) :
    e.varBound ≤ c.varBase :=
  varBound_le_varBoundList (List.mem_append_left _ h)

theorem varBound_range_le (c : Copy) {rg : RangeExpr} (h : rg ∈ c.srcRange ++ c.dstRange) :
    rg.min.varBound ≤ c.varBase ∧ rg.extent.varBound ≤ c.varBase :=
  ⟨varBound_le_varBoundList (List.mem_append_right _ (List.mem_flatMap.2 ⟨rg, h, by simp⟩)),
    varBound_le_varBoundList (List.mem_append_right _ (List.mem_flatMap.2 ⟨rg, h, by simp⟩))⟩

theorem makeIterVars_fst (c : Copy) :
    c.makeIterVars.map (·.1) = (List.range (nonUnit c.srcRange).length).map (c.varBase + ·) := by
  simpa using map_fst_makeIterVarsFrom c.varBase 0 c.srcRange

theorem makeIterVars_snd (c : Copy) :
    c.makeIterVars.map (·.2) = (nonUnit c.srcRange).map (·.extent) :=
  map_snd_makeIterVarsFrom _ _ _

theorem length_makeIterVars (c : Copy) : c.makeIterVars.length = (nonUnit c.srcRange).length := by
  simpa using congrArg List.length c.makeIterVars_snd

/-- The loop variables are new: each is at least `varBase`, above every variable the extents
read. -/
theorem makeIterVars_fresh (c : Copy) :
    ∀ p ∈ c.makeIterVars, p.2.varBound ≤ c.varBase ∧ c.varBase ≤ p.1 := fun p hp => by
  have h2 : p.2 ∈ (nonUnit c.srcRange).map (·.extent) := by
    rw [← c.makeIterVars_snd]; exact List.mem_map_of_mem _ hp
  have h1 : p.1 ∈ (List.range (nonUnit c.srcRange).length).map (c.varBase + ·) := by
    rw [← c.makeIterVars_fst]; exact List.mem_map_of_mem _ hp
  obtain ⟨rg, hrg, he⟩ := List.mem_map.1 h2
  obtain ⟨k, -, hk⟩ := List.mem_map.1 h1
  exact ⟨he ▸ (c.varBound_range_le (List.mem_append_left _ (List.mem_filter.1 hrg).1)).2, by omega⟩

theorem makeIndices_eq_ok {c : Copy} {ivs : List (Nat × PrimExpr)} {srcDst : Int} {L : List PrimExpr}
    (h : makeIndicesFrom ivs 0 (c.rangesOf srcDst) = .ok (L, ivs.length)) :
    c.makeIndices ivs srcDst = .ok L := by
  simp [makeIndices, h, icheck, bind, Except.bind, pure, Except.pure]

theorem makePredicate_eq_ok {c : Copy} {canProve : PrimExpr → Bool} {ivs : List (Nat × PrimExpr)}
    {extents : List PrimExpr} {srcDst : Int} {conds : List PrimExpr}
    (hlen : extents.length = (c.rangesOf srcDst).length)
    (h : predicateConds canProve ivs 0 ((c.rangesOf srcDst).zip extents) = .ok conds) :
    c.makePredicate canProve ivs extents srcDst = .ok (conjunction conds) := by
  simp [makePredicate, hlen, h, icheck, bind, Except.bind, pure, Except.pure]

/-- With as many ranges as dimensions on both sides, and as many ranges of extent other than `1`
on the dst side as on the src side, every counter check passes and `Canonialize` returns the
loop nest around the guarded store. -/
theorem canonialize_eq_ok (c : Copy) (canProve : PrimExpr → Bool)
    (hsrc : c.srcRange.length = c.src.shape.length) (hdst : c.dstRange.length = c.dst.shape.length)
    (hcount : (nonUnit c.dstRange).length = (nonUnit c.srcRange).length) :
    ∃ Ls Ld cs cd, makeIndicesFrom c.makeIterVars 0 c.srcRange = .ok (Ls, c.makeIterVars.length) ∧
      makeIndicesFrom c.makeIterVars 0 c.dstRange = .ok (Ld, c.makeIterVars.length) ∧
      predicateConds canProve c.makeIterVars 0 (c.srcRange.zip c.src.shape) = .ok cs ∧
      predicateConds canProve c.makeIterVars 0 (c.dstRange.zip c.dst.shape) = .ok cd ∧
      c.canonialize canProve = .ok (c.makeIterVars.foldr
        (fun (v, e) body => .forLoop v (.int 0) e .parallel body)
        (guardStore (conjunction cd) (.bufferStore c.dst.data (guardValue (conjunction cs)
          (if c.src.dtype ≠ c.dst.dtype then .cast c.dst.dtype (.bufferLoad c.src.data Ls)
            else .bufferLoad c.src.data Ls)) Ld))) := by
  have hlen := c.length_makeIterVars
  obtain ⟨Ls, hLs⟩ := makeIndicesFrom_ok c.makeIterVars c.srcRange 0 (by omega)
  obtain ⟨Ld, hLd⟩ := makeIndicesFrom_ok c.makeIterVars c.dstRange 0 (by omega)
  obtain ⟨cs, hcs⟩ := predicateConds_ok canProve c.makeIterVars (c.srcRange.zip c.src.shape) 0
    (by rw [List.map_fst_zip _ _ hsrc.le]; omega)
  obtain ⟨cd, hcd⟩ := predicateConds_ok canProve c.makeIterVars (c.dstRange.zip c.dst.shape) 0
    (by rw [List.map_fst_zip _ _ hdst.le]; omega)
  rw [zero_add, ← hlen] at hLs
  rw [zero_add, hcount, ← hlen] at hLd
  have hs : c.makeIndices c.makeIterVars 0 = .ok Ls := makeIndices_eq_ok (by simpa using hLs)
  have hd : c.makeIndices c.makeIterVars 1 = .ok Ld := makeIndices_eq_ok (by simpa using hLd)
  have ps : c.makePredicate canProve c.makeIterVars c.src.shape 0 = .ok (conjunction cs) :=
    makePredicate_eq_ok (by simpa using hsrc.symm) (by simpa using hcs)
  have pd : c.makePredicate canProve c.makeIterVars c.dst.shape 1 = .ok (conjunction cd) :=
    makePredicate_eq_ok (by simpa using hdst.symm) (by simpa using hcd)
  refine ⟨Ls, Ld, cs, cd, hLs, hLd, hcs, hcd, ?_⟩
  simp only [canonialize, hs, hd, ps, pd, Except.ok_bind]
  rfl

theorem makeIndices_ok_inv {c : Copy} {ivs : List (Nat × PrimExpr)} {srcDst : Int} {L : List PrimExpr}
    (h : c.makeIndices ivs srcDst = .ok L) :
    (nonUnit (c.rangesOf srcDst)).length = ivs.length := by
  simp only [makeIndices, Except.bind_eq_ok] at h
  obtain ⟨⟨L', n⟩, hL, u, hc, -⟩ := h
  have := makeIndicesFrom_count ivs _ 0 hL
  simp only [icheck_eq_ok, beq_iff_eq] at hc
  omega

theorem makePredicate_ok_inv {c : Copy} {canProve : PrimExpr → Bool} {ivs : List (Nat × PrimExpr)}
    {extents : List PrimExpr} {srcDst : Int} {p : Option PrimExpr}
    (h : c.makePredicate canProve ivs extents srcDst = .ok p) :
    extents.length = (c.rangesOf srcDst).length := by
  simp only [makePredicate, Except.bind_eq_ok] at h
  obtain ⟨u, hc, -⟩ := h
  simpa using hc

/-- `Copy::Canonialize` returns exactly when each region has as many ranges as its buffer has
dimensions and the two regions have equally many ranges of extent other than `1`.  Whether those
ranges are the same, which `CheckRangeEqual()` asks and the constructor drops, does not matter. -/
theorem canonialize_succeeds_iff (c : Copy) (canProve : PrimExpr → Bool) :
    (∃ s, c.canonialize canProve = .ok s) ↔ c.srcRange.length = c.src.shape.length ∧
      c.dstRange.length = c.dst.shape.length ∧
        (nonUnit c.dstRange).length = (nonUnit c.srcRange).length := by
  refine ⟨fun ⟨s, hs⟩ => ?_, fun ⟨hsrc, hdst, hcount⟩ => ?_⟩
  · simp only [canonialize, Except.bind_eq_ok] at hs
    obtain ⟨Ls, -, Ld, hLd, ps, hps, pd, hpd, -⟩ := hs
    refine ⟨(makePredicate_ok_inv hps).symm.trans ?_, (makePredicate_ok_inv hpd).symm.trans ?_,
      (makeIndices_ok_inv hLd).trans c.length_makeIterVars⟩ <;> simp
  · obtain ⟨_, _, _, _, -, -, -, -, h⟩ := c.canonialize_eq_ok canProve hsrc hdst hcount
    exact ⟨_, h⟩

/-! ### The environment at an offset -/

/-- The environment in which the body runs at the offset `o` of the src box. -/
def offsetEnv (c : Copy) (ρ : Nat → Int) (o : List Int) : Nat → Int :=
  bindVars ρ (c.makeIterVars.map (·.1)) o

/-- The nest runs its body once per offset of the src box, in the environment of the offset. -/
theorem exec_iterNest (c : Copy) (heap : Heap) (ρ : Nat → Int) (body : Stmt) :
    (c.makeIterVars.foldr (fun (v, e) body => .forLoop v (.int 0) e .parallel body) body).exec heap ρ =
      (boxPoints (shapeBox (c.extents ρ heap))).flatMap fun o => body.exec heap (c.offsetEnv ρ o) := by
  have hext : c.makeIterVars.map (·.2.eval ρ heap) = c.extents ρ heap := by
    simpa [extents, List.map_map] using congrArg (List.map (·.eval ρ heap)) c.makeIterVars_snd
  rw [Stmt.exec_exprNest heap .parallel _ _ ρ c.makeIterVars_fresh, hext]
  rfl

section Offset
variable (c : Copy) (ρ : Nat → Int) (heap : Heap) {o : List Int}

theorem offsetEnv_of_lt {w : Nat} (hw : w < c.varBase) : c.offsetEnv ρ o w = ρ w :=
  bindVars_of_not_mem o (by rw [c.makeIterVars_fst]; simp only [List.mem_map]; omega)

theorem length_of_mem_box (ho : o ∈ boxPoints (shapeBox (c.extents ρ heap))) :
    o.length = c.makeIterVars.length := by
  rw [(inBox_shapeBox_iff.1 (mem_boxPoints.1 ho)).1, extents, List.length_map, c.length_makeIterVars]

/-- At the offset `o`, the `k`-th loop variable holds the `k`-th coordinate of `o`. -/
theorem offsetEnv_iterVar (hol : o.length = c.makeIterVars.length) :
    ∀ k (h : k < c.makeIterVars.length), 0 ≤ k → c.offsetEnv ρ o c.makeIterVars[k].1 = o.getD k 0 :=
  fun k hk _ => by
    have hnd : (c.makeIterVars.map (·.1)).Nodup := by
      rw [c.makeIterVars_fst]
      exact (List.nodup_range _).map fun _ _ => Nat.add_left_cancel
    have := @bindVars_getElem ρ _ _ hnd k (by simpa using hk) (show k < o.length by omega)
    rw [List.getElem_map] at this
    rw [offsetEnv, this, List.getD_eq_getElem?_getD, List.getElem?_eq_getElem (show k < o.length by omega),
      Option.getD_some]

theorem eval_min_offsetEnv {rg : RangeExpr} (hrg : rg ∈ c.srcRange ++ c.dstRange) :
    rg.min.eval (c.offsetEnv ρ o) heap = rg.min.eval ρ heap :=
  PrimExpr.eval_congr_of_varBound heap _ fun _ hw =>
    c.offsetEnv_of_lt ρ (Nat.lt_of_lt_of_le hw (c.varBound_range_le hrg).1)

theorem eval_shape_offsetEnv {e : PrimExpr} (he : e ∈ c.src.shape ++ c.dst.shape) :
    e.eval (c.offsetEnv ρ o) heap = e.eval ρ heap :=
  PrimExpr.eval_congr_of_varBound heap _ fun _ hw =>
    c.offsetEnv_of_lt ρ (Nat.lt_of_lt_of_le hw (c.varBound_shape_le he))

/-- At the offset `o`, an index list of `MakeIndices` names the point `embedOffset` gives. -/
theorem evalList_indices_offsetEnv {rgs : List RangeExpr} {L : List PrimExpr}
    (hrgs : ∀ rg ∈ rgs, rg ∈ c.srcRange ++ c.dstRange) (hol : o.length = c.makeIterVars.length)
    (h : makeIndicesFrom c.makeIterVars 0 rgs = .ok (L, c.makeIterVars.length)) :
    PrimExpr.evalList (c.offsetEnv ρ o) heap L = embedOffset ρ heap rgs o := by
  simpa using evalList_makeIndicesFrom _ heap ρ _ o rgs 0 h (fun rg hrg => c.eval_min_offsetEnv ρ heap (hrgs rg hrg))
    (c.offsetEnv_iterVar ρ hol)

/-- At the offset `o`, the conditions `MakePredicate` keeps all hold exactly when the point is
in bounds at the ranges of extent other than `1`. -/
theorem predicateConds_offsetEnv {canProve : PrimExpr → Bool} {rgs : List RangeExpr}
    {shape conds : List PrimExpr} (hrgs : ∀ rg ∈ rgs, rg ∈ c.srcRange ++ c.dstRange)
    (hshape : ∀ e ∈ shape, e ∈ c.src.shape ++ c.dst.shape) (hlen : rgs.length = shape.length)
    (hol : o.length = c.makeIterVars.length) (hsound : BoundsSound canProve heap (c.offsetEnv ρ o))
    (h : predicateConds canProve c.makeIterVars 0 (rgs.zip shape) = .ok conds) :
    (∀ x ∈ conds, x.eval (c.offsetEnv ρ o) heap ≠ 0) ↔
      nonUnitInBounds ρ heap rgs shape (embedOffset ρ heap rgs o) = true := by
  have := predicateConds_iff canProve _ heap ρ _ o _ 0 h (fun p hp =>
    ⟨c.eval_min_offsetEnv ρ heap (hrgs _ (List.of_mem_zip hp).1),
      c.eval_shape_offsetEnv ρ heap (hshape _ (List.of_mem_zip hp).2)⟩) (c.offsetEnv_iterVar ρ hol) hsound
  rwa [List.map_fst_zip _ _ hlen.le, List.map_snd_zip _ _ hlen.ge, List.drop_zero] at this

end Offset

/-- What the nest does at the offset `o` of the src box: when `o` is in bounds on the dst side,
one store at the dst index it names, of the src element it names converted to the dst type, or
of `0` when that element is out of bounds. -/
def storeAt (c : Copy) (ρ : Nat → Int) (heap : Heap) (o : List Int) : List Event :=
  if nonUnitInBounds ρ heap c.dstRange c.dst.shape (embedOffset ρ heap c.dstRange o) then
    [⟨c.dst.data, embedOffset ρ heap c.dstRange o,
      if nonUnitInBounds ρ heap c.srcRange c.src.shape (embedOffset ρ heap c.srcRange o) then
        heap.castTo c.src.dtype c.dst.dtype (heap.load c.src.data (embedOffset ρ heap c.srcRange o))
      else 0⟩]
  else []

/-- At an offset of the box, the guarded store of the lowered copy is the attempt `storeAt`. -/
theorem exec_guardStore_offsetEnv (c : Copy) (canProve : PrimExpr → Bool) (heap : Heap)
    (ρ : Nat → Int) {Ls Ld cs cd : List PrimExpr}
    (hsrc : c.srcRange.length = c.src.shape.length) (hdst : c.dstRange.length = c.dst.shape.length)
    (hLs : makeIndicesFrom c.makeIterVars 0 c.srcRange = .ok (Ls, c.makeIterVars.length))
    (hLd : makeIndicesFrom c.makeIterVars 0 c.dstRange = .ok (Ld, c.makeIterVars.length))
    (hcs : predicateConds canProve c.makeIterVars 0 (c.srcRange.zip c.src.shape) = .ok cs)
    (hcd : predicateConds canProve c.makeIterVars 0 (c.dstRange.zip c.dst.shape) = .ok cd)
    {o : List Int} (ho : o ∈ boxPoints (shapeBox (c.extents ρ heap)))
    (hsound : BoundsSound canProve heap (c.offsetEnv ρ o)) :
    (guardStore (conjunction cd) (.bufferStore c.dst.data (guardValue (conjunction cs)
      (if c.src.dtype ≠ c.dst.dtype then .cast c.dst.dtype (.bufferLoad c.src.data Ls)
        else .bufferLoad c.src.data Ls)) Ld)).exec heap (c.offsetEnv ρ o) = c.storeAt ρ heap o := by
  have hol := c.length_of_mem_box ρ heap ho
  have hps := c.predicateConds_offsetEnv ρ heap (fun _ => List.mem_append_left _)
    (fun _ => List.mem_append_left _) hsrc hol hsound hcs
  have hpd := c.predicateConds_offsetEnv ρ heap (fun _ => List.mem_append_right _)
    (fun _ => List.mem_append_right _) hdst hol hsound hcd
  have hload : (PrimExpr.bufferLoad c.src.data Ls).eval (c.offsetEnv ρ o) heap =
      heap.load c.src.data (embedOffset ρ heap c.srcRange o) := by
    rw [PrimExpr.eval, c.evalList_indices_offsetEnv ρ heap (fun _ => List.mem_append_left _) hol hLs]
  simp only [exec_guardStore, Stmt.exec, eval_guardValue, PrimExpr.eval_ite_cast, hload, hps, hpd,
    storeAt, c.evalList_indices_offsetEnv ρ heap (fun _ => List.mem_append_right _) hol hLd]

/-- The lowered copy makes one store attempt per offset of the src box, in the order of the
offsets; the attempt is made when the dst index is in bounds and stores the src element, cast
to the dst type when the two types differ, or `0` when the src index is out of bounds. -/
theorem canonialize_exec (c : Copy) (canProve : PrimExpr → Bool) (heap : Heap) (ρ : Nat → Int)
    (hsrc : c.srcRange.length = c.src.shape.length) (hdst : c.dstRange.length = c.dst.shape.length)
    (hcount : (nonUnit c.dstRange).length = (nonUnit c.srcRange).length)
    (hsound : ∀ o ∈ boxPoints (shapeBox (c.extents ρ heap)), BoundsSound canProve heap (c.offsetEnv ρ o)) :
    ∃ s, c.canonialize canProve = .ok s ∧
      s.exec heap ρ = (boxPoints (shapeBox (c.extents ρ heap))).flatMap (c.storeAt ρ heap) := by
  obtain ⟨Ls, Ld, cs, cd, hLs, hLd, hcs, hcd, hs⟩ := c.canonialize_eq_ok canProve hsrc hdst hcount
  refine ⟨_, hs, ?_⟩
  rw [exec_iterNest]
  exact List.flatMap_congr fun o ho =>
    c.exec_guardStore_offsetEnv canProve heap ρ hsrc hdst hLs hLd hcs hcd ho (hsound o ho)

/-- Row `1` of a `4 × 4` buffer of `int32` copied to `[2, 6)` of a buffer of eight `int8`, with
an analyzer that proves nothing, on a target whose casts wrap around. -/
theorem canonialize_exec_row :
    let c := Copy.make ⟨0, ⟨0, 32, 1⟩, [.int 4, .int 4]⟩ ⟨1, ⟨0, 8, 1⟩, [.int 8]⟩
      [⟨.int 1, .int 1⟩, ⟨.int 0, .int 4⟩] [⟨.int 2, .int 4⟩]
    ∃ s, c.canonialize (fun _ => false) = .ok s ∧
      s.exec ⟨fun _ idx => 100 * idx.sum, fun d v => v.bmod (2 ^ d.bits)⟩ (fun _ => 0) =
        (boxPoints (shapeBox (c.extents (fun _ => 0)
          ⟨fun _ idx => 100 * idx.sum, fun d v => v.bmod (2 ^ d.bits)⟩))).flatMap
          (c.storeAt (fun _ => 0) ⟨fun _ idx => 100 * idx.sum, fun d v => v.bmod (2 ^ d.bits)⟩) :=
  Copy.canonialize_exec _ _ _ _ rfl rfl rfl fun _ _ _ _ _ =>
    ⟨fun h => absurd h Bool.false_ne_true, fun h => absurd h Bool.false_ne_true⟩

/-- At offset `1` that copy reads `200` from `[1, 1]` and stores it as the `int8` value `-56`. -/
example : (Copy.make ⟨0, ⟨0, 32, 1⟩, [.int 4, .int 4]⟩ ⟨1, ⟨0, 8, 1⟩, [.int 8]⟩
      [⟨.int 1, .int 1⟩, ⟨.int 0, .int 4⟩] [⟨.int 2, .int 4⟩]).storeAt (fun _ => 0)
      ⟨fun _ idx => 100 * idx.sum, fun d v => v.bmod (2 ^ d.bits)⟩ [1] = [⟨1, [3], -56⟩] :=
  rfl

/-- The lowered copy of a region made of the same ranges on both sides, as `CheckRangeEqual` asks,
stores only inside the dst region. -/
theorem canonialize_stores_in_region (c : Copy) (canProve : PrimExpr → Bool) (heap : Heap)
    (ρ : Nat → Int) (hsrc : c.srcRange.length = c.src.shape.length)
    (hdst : c.dstRange.length = c.dst.shape.length) (hcheck : c.checkRangeEqual = true) :
    ∃ s, c.canonialize canProve = .ok s ∧
      ∀ ev ∈ s.exec heap ρ, ev.buffer = c.dst.data ∧ inRegion ρ heap c.dstRange ev.indices = true := by
  have hnu := RangeExpr.eq_of_structuralEqualList _ _ hcheck
  obtain ⟨Ls, Ld, cs, cd, -, hLd, -, -, hs⟩ :=
    c.canonialize_eq_ok canProve hsrc hdst (congrArg List.length hnu).symm
  refine ⟨_, hs, fun ev hev => ?_⟩
  rw [exec_iterNest, List.mem_flatMap] at hev
  obtain ⟨o, ho, hev⟩ := hev
  rw [exec_guardStore, List.mem_ite_nil_right, Stmt.exec, List.mem_singleton] at hev
  obtain ⟨-, rfl⟩ := hev
  refine ⟨rfl, ?_⟩
  rw [c.evalList_indices_offsetEnv ρ heap (fun _ => List.mem_append_right _)
    (c.length_of_mem_box ρ heap ho) hLd]
  exact inRegion_embedOffset ρ heap _ _ (by rw [← hnu]; exact mem_boxPoints.1 ho)

/-- Row `1` of a `4 × 4` buffer copied to `[0, 4)` of a buffer of `8`. -/
theorem canonialize_stores_in_region_row :
    let c := Copy.make ⟨0, ⟨2, 16, 1⟩, [.int 4, .int 4]⟩ ⟨1, ⟨2, 16, 1⟩, [.int 8]⟩
      [⟨.int 1, .int 1⟩, ⟨.int 0, .int 4⟩] [⟨.int 0, .int 4⟩]
    c.checkRangeEqual = true ∧ ∃ s, c.canonialize (fun _ => false) = .ok s ∧
      ∀ ev ∈ s.exec Heap.zero (fun _ => 0), ev.buffer = c.dst.data ∧
        inRegion (fun _ => 0) Heap.zero c.dstRange ev.indices = true :=
  ⟨rfl, Copy.canonialize_stores_in_region _ _ _ _ rfl rfl rfl⟩

/-- A src region of `4` and a dst region of `2` in a buffer of `8`: the constructor keeps the
pair although `CheckRangeEqual` fails, and whatever the analyzer proves, the lowered copy stores
at `3`, past the dst region `[0, 2)`, in every run. -/
theorem copy_writes_outside_region :
    (Copy.make ⟨0, ⟨2, 16, 1⟩, [.int 4]⟩ ⟨1, ⟨2, 16, 1⟩, [.int 8]⟩ [⟨.int 0, .int 4⟩]
      [⟨.int 0, .int 2⟩]).checkRangeEqual = false ∧
    ∀ canProve, ∃ s, (Copy.make ⟨0, ⟨2, 16, 1⟩, [.int 4]⟩ ⟨1, ⟨2, 16, 1⟩, [.int 8]⟩
      [⟨.int 0, .int 4⟩] [⟨.int 0, .int 2⟩]).canonialize canProve = .ok s ∧
      ∀ heap ρ, ∃ ev ∈ s.exec heap ρ, ev.buffer = 1 ∧
        inRegion ρ heap [⟨.int 0, .int 2⟩] ev.indices = false := by
  refine ⟨rfl, fun canProve => ⟨_, rfl, fun heap ρ => ?_⟩⟩
  cases hA : canProve (.lt (.add (.int 0) (.var 0)) (.int 8)) <;>
    cases hB : canProve (.ge (.add (.int 0) (.var 0)) (.int 0)) <;>
    simp [hA, hB, Stmt.exec, guardStore, conjunction, PrimExpr.eval, PrimExpr.evalList,
      List.range_succ, Copy.make, inRegion, Copy.varBase, PrimExpr.varBoundList, PrimExpr.varBound]

end Copy

end TileLayout
