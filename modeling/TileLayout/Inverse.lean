import TileLayout.Valid
/-!
# Inverting a layout

`LayoutNode::Inverse` asks TVM's iterator-map analysis for the inverse: `DetectIterMap`, at the
`Bijective` level, checks that the forward indices are an affine bijection of the input
iterators, and `InverseAffineIterMap` expresses every input iterator through the output
variables `v0, v1, …`.  Both are arith code outside this repository's sources, so the model takes
them as an engine that carries its own correctness: an inverse it returns is right on the input
box.  Nothing is assumed about when it succeeds.  `tableEngine` is one such engine, built by
enumeration.

Over the engine, `Layout.inverse` is the code: the analysis must succeed, `OutputShape()` of the
layout becomes the input box of the inverse, and an input the inverse map does not name gets the
index `0`.  `Layout.InverseOf` collects what the result satisfies when the layout is `Valid`, and
`inverseOf_of_valid` proves it.
-/

namespace TileLayout

/-- What a successful `DetectIterMap` followed by `InverseAffineIterMap` guarantees about the
inverse map `inv` of the indices `idx` over the input box `doms`: an input `k` that it names is
recovered from the outputs by an expression that reads only the outputs (no other variable and no
buffer), and an input it does not name is an extent-one iterator, which the analysis folds into a
constant. -/
def InverseSpec (doms : List Range) (idx : List PrimExpr) (inv : Nat → Option PrimExpr) : Prop :=
  ∀ k (hk : k < doms.length),
    (∀ e, inv k = some e → e.varBound ≤ idx.length ∧
      (∀ (ρ : Nat → Int) (heap heap' : Heap), e.eval ρ heap = e.eval ρ heap') ∧
      ∀ x, InBox doms x → e.valueAt (idx.map (·.valueAt x)) = x.getD k 0) ∧
    (inv k = none → doms[k].extent = 1)

/-- `arith::DetectIterMap(indices, input_iters, 1, IterMapLevel::Bijective)` followed by
`arith::InverseAffineIterMap(res->indices, outputs)`: the errors of the analysis, or for each
input iterator its expression in the output variables (output `i` is `var i`). -/
structure IterMapEngine where
  detect : List PrimExpr → List Range → Except String (Nat → Option PrimExpr)
  detect_sound : ∀ {idx doms inv}, detect idx doms = .ok inv → InverseSpec doms idx inv

/-- `backward_index`: the inverse expression of each input, `0` for an input the map omits. -/
def backwardIndex (inv : Nat → Option PrimExpr) (n : Nat) : List PrimExpr :=
  (List.range n).map fun i => (inv i).getD (.int 0)

/-- Every backward index reads only the outputs. -/
theorem backwardIndex_reads {doms : List Range} {idx : List PrimExpr} {inv : Nat → Option PrimExpr}
    (h : InverseSpec doms idx inv) : ∀ e ∈ backwardIndex inv doms.length,
      e.varBound ≤ idx.length ∧ ∀ (ρ : Nat → Int) (heap heap' : Heap), e.eval ρ heap = e.eval ρ heap' := by
  intro e he
  obtain ⟨k, hk, rfl⟩ := List.mem_map.1 he
  cases hinv : inv k with
  | some e => simpa [hinv] using ⟨((h k (List.mem_range.1 hk)).1 e hinv).1, ((h k (List.mem_range.1 hk)).1 e hinv).2.1⟩
  | none => exact ⟨Nat.zero_le _, fun _ _ _ => rfl⟩

/-- Zero-based domains are the box of their extents. -/
theorem shapeBox_map_extent {doms : List Range} (hmin : ∀ r ∈ doms, r.min = 0) :
    shapeBox (doms.map Range.extent) = doms := by
  refine (List.map_map ..).trans ((List.map_congr_left fun r hr => ?_).trans (List.map_id _))
  obtain ⟨m, e⟩ := r
  cases (hmin _ hr : m = 0)
  rfl

namespace Layout

/-- `LayoutNode::Inverse()`: `ICHECK(res->errors.empty())` on the analysis, then one input
`make_itervar("v" + i, OutputShape()[i])` per output of the layout. -/
def inverse (E : IterMapEngine) (l : Layout) : Except String Layout := do
  let inv ← E.detect l.forwardIndex l.forwardVar
  let outputsShape ← l.outputShape
  pure ⟨shapeBox outputsShape, backwardIndex inv l.inputDim⟩

theorem inverse_eq_ok {E : IterMapEngine} {l M : Layout} :
    l.inverse E = .ok M ↔ ∃ inv S, E.detect l.forwardIndex l.forwardVar = .ok inv ∧
      l.outputShape = .ok S ∧ M = ⟨shapeBox S, backwardIndex inv l.inputDim⟩ := by
  simp only [inverse, Except.bind_eq_ok, pure, Except.pure, Except.ok.injEq]
  constructor
  · rintro ⟨inv, hdet, S, hS, rfl⟩
    exact ⟨inv, S, hdet, hS, rfl⟩
  · rintro ⟨inv, S, hdet, hS, rfl⟩
    exact ⟨inv, hdet, S, hS, rfl⟩

/-- A layout whose inputs start at `0` is defined on the box of its input shape. -/
theorem shapeBox_inputShape {l : Layout} (hmin : ∀ r ∈ l.forwardVar, r.min = 0) :
    shapeBox l.inputShape = l.forwardVar :=
  shapeBox_map_extent hmin

/-- The zero point lies in the output box of every layout whose `OutputShape()` succeeds. -/
theorem inBox_zero_of_outputShape {l : Layout} {S : List Int} (hS : l.outputShape = .ok S) :
    InBox (shapeBox S) (List.replicate S.length 0) := by
  have h := List.forall₂_iff_get.1 (outputShape_eq_ok_iff.1 hS)
  refine inBox_shapeBox_iff.2 ⟨by simp, fun k _ h₂ => ?_⟩
  simpa using outputExtent_pos (h.2 k (h.1 ▸ h₂) h₂)

section Valid

variable {E : IterMapEngine} {l M : Layout} {inv : Nat → Option PrimExpr}

/-- The backward indices recover every point of the input box from its image. -/
theorem map_backwardIndex (hmin : ∀ r ∈ l.forwardVar, r.min = 0)
    (hinv : InverseSpec l.forwardVar l.forwardIndex inv) {x : List Int}
    (hx : InBox l.forwardVar x) : (backwardIndex inv l.inputDim).map (·.valueAt (l.apply x)) = x := by
  have hlen := hx.length_eq
  refine List.ext_getElem (by simp [backwardIndex, hlen, inputDim]) fun k hk _ => ?_
  have hkl : k < l.forwardVar.length := by simpa [backwardIndex, inputDim] using hk
  simp only [backwardIndex, List.getElem_map, List.getElem_range]
  cases hk' : inv k with
  | some e =>
      simpa [List.getD_eq_getElem?_getD, hlen ▸ hkl] using (hinv k hkl).1 e hk' |>.2.2 x hx
  | none =>
      have hc := List.forall₂_iff_get.1 hx |>.2 k hkl (hlen ▸ hkl)
      have hr := hmin _ (List.getElem_mem hkl)
      simp only [List.get_eq_getElem, Range.Contains, (hinv k hkl).2 hk'] at hc
      simp only [Option.getD_none, valueAt_int]
      omega

/-- The parts of `Inverse()` on a valid layout that do not need the analysis to run again. -/
theorem inverse_invOn (hl : l.Valid) (hM : l.inverse E = .ok M) :
    l.outputShape = .ok M.inputShape ∧
      Set.InvOn M.apply l.apply (boxSet l.forwardVar) (boxSet M.forwardVar) ∧
      Set.MapsTo M.apply (boxSet M.forwardVar) (boxSet l.forwardVar) := by
  obtain ⟨inv, S, hdet, hS, rfl⟩ := inverse_eq_ok.1 hM
  obtain ⟨hmin, S', hS', hbij⟩ := hl
  cases hS.symm.trans hS'
  have hleft : ∀ x ∈ boxSet l.forwardVar,
      (⟨shapeBox S, backwardIndex inv l.inputDim⟩ : Layout).apply (l.apply x) = x :=
    fun x hx => map_backwardIndex hmin (E.detect_sound hdet) hx
  have hright : ∀ y ∈ boxSet (shapeBox S), ∃ x ∈ boxSet l.forwardVar, l.apply x = y :=
    fun y hy => hbij.2.2 hy
  refine ⟨by simpa [inputShape] using hS, ⟨hleft, fun y hy => ?_⟩, fun y hy => ?_⟩ <;>
    obtain ⟨x, hx, rfl⟩ := hright y hy
  · rw [hleft x hx]
  · rwa [hleft x hx]

/-- `Inverse()` of a valid layout is valid, with the input shape of the layout as its output
shape. -/
theorem inverse_valid (hl : l.Valid) (hM : l.inverse E = .ok M) :
    M.Valid ∧ M.outputShape = .ok l.inputShape := by
  obtain ⟨-, hinvOn, hmaps⟩ := inverse_invOn hl hM
  obtain ⟨inv, S, -, hS, rfl⟩ := inverse_eq_ok.1 hM
  obtain ⟨hmin, S', hS', hbijl⟩ := hl
  cases hS.symm.trans hS'
  have hpos : ∀ s ∈ l.inputShape, 0 < s := by
    obtain ⟨x, hx, -⟩ := hbijl.2.2 (inBox_zero_of_outputShape hS)
    simpa [inputShape] using extent_pos_of_inBox hx
  have hbij : Set.BijOn (⟨shapeBox S, backwardIndex inv l.inputDim⟩ : Layout).apply
      (boxSet (shapeBox S)) (boxSet (shapeBox l.inputShape)) := by
    rw [shapeBox_inputShape hmin]
    exact hinvOn.symm.bijOn hmaps (mapsTo_of_outputShape hS)
  have hout := outputShape_eq_of_bijOn hpos hbij
  refine ⟨⟨fun r hr => ?_, l.inputShape, hout, hbij⟩, hout⟩
  obtain ⟨s, -, rfl⟩ := List.mem_map.1 hr
  rfl

end Valid

/-- What `Inverse()` returns for a valid layout `l`: a layout `M` on the box of `l`'s outputs
whose forward map undoes `l`'s on both boxes, which is valid again with `l`'s input shape as its
output shape, and whose own inverse, when the analysis accepts `M`, is defined on `l`'s box and
agrees with `l` there (the equality `SEqualReduce` checks on the syntax). -/
structure InverseOf (E : IterMapEngine) (l M : Layout) : Prop where
  outputShape_eq : l.outputShape = .ok M.inputShape
  invOn : Set.InvOn M.apply l.apply (boxSet l.forwardVar) (boxSet M.forwardVar)
  mapsTo : Set.MapsTo M.apply (boxSet M.forwardVar) (boxSet l.forwardVar)
  valid : M.Valid
  inverse_outputShape : M.outputShape = .ok l.inputShape
  roundTrip : ∀ N, M.inverse E = .ok N →
    N.forwardVar = l.forwardVar ∧ Set.EqOn N.apply l.apply (boxSet l.forwardVar)

theorem inverseOf_of_valid {E : IterMapEngine} {l M : Layout} (hl : l.Valid)
    (hM : l.inverse E = .ok M) : l.InverseOf E M := by
  obtain ⟨hS, hinvOn, hmaps⟩ := inverse_invOn hl hM
  obtain ⟨hMv, hMS⟩ := inverse_valid hl hM
  refine ⟨hS, hinvOn, hmaps, hMv, hMS, fun N hN => ⟨?_, fun x hx => ?_⟩⟩
  · obtain ⟨_, S, -, hS', rfl⟩ := inverse_eq_ok.1 hN
    cases hMS.symm.trans hS'
    exact shapeBox_inputShape hl.1
  · obtain ⟨-, hleft, -⟩ := inverse_invOn hMv hN
    obtain ⟨_, S, -, hS', hMeq⟩ := inverse_eq_ok.1 hM
    have hy : l.apply x ∈ boxSet M.forwardVar := by
      rw [hMeq]
      exact mapsTo_of_outputShape hS' hx
    calc N.apply x = N.apply (M.apply (l.apply x)) := by rw [hinvOn.1 hx]
      _ = l.apply x := hleft.1 hy

end Layout

/-- `FragmentNode::Inverse()`: the layout from inputs and replica to indices and thread,
inverted. -/
def Fragment.inverse (E : IterMapEngine) (F : Fragment) : Except String Layout :=
  F.fullLayout.inverse E

/-! ## An engine by enumeration

`tableEngine` tabulates the forward map over the input box and, when no two inputs share an
image, answers each input with a chain of `if_then_else` over the table.  It shows that the
engine's specification can be met, and it is the engine the concrete runs below use. -/

/-- `(var j == y₀) && (var (j + 1) == y₁) && …`: the outputs from position `j` on are `y`. -/
def matchPoint (j : Nat) : List Int → PrimExpr
  | [] => .int 1
  | v :: y => .and (.eq (.var j) (.int v)) (matchPoint (j + 1) y)

/-- The `k`-th coordinate of the first tabulated input whose image is the current output. -/
def tableLookup (k : Nat) : List (List Int × List Int) → PrimExpr
  | [] => .int 0
  | (x, y) :: t => .ifThenElse (matchPoint 0 y) (.int (x.getD k 0)) (tableLookup k t)

@[simp] theorem valueAt_ifThenElse (c t e : PrimExpr) (z : List Int) :
    (PrimExpr.ifThenElse c t e).valueAt z = if c.valueAt z ≠ 0 then t.valueAt z else e.valueAt z :=
  rfl

theorem eval_matchPoint_ne_zero (ρ : Nat → Int) (heap : Heap) :
    ∀ (y : List Int) (j : Nat),
      (matchPoint j y).eval ρ heap ≠ 0 ↔ ∀ i (h : i < y.length), ρ (j + i) = y[i]
  | [], _ => by simp [matchPoint, PrimExpr.eval]
  | v :: y, j => by
      simp only [matchPoint, PrimExpr.eval, ne_eq, ite_eq_right_iff, one_ne_zero, imp_false,
        not_not, Decidable.not_not, eval_matchPoint_ne_zero ρ heap y (j + 1)]
      constructor
      · rintro ⟨hj, hy⟩ (_ | i) h
        · simpa using hj
        · simpa [Nat.add_assoc, Nat.add_comm 1 i] using hy i (by simpa using h)
      · intro h
        refine ⟨by simpa using h 0 (by simp), fun i hi => ?_⟩
        simpa [Nat.add_assoc, Nat.add_comm 1 i] using h (i + 1) (by simpa using hi)

theorem matchPoint_valueAt_ne_zero {y z : List Int} (h : z.length = y.length) :
    (matchPoint 0 y).valueAt z ≠ 0 ↔ z = y := by
  rw [PrimExpr.valueAt, eval_matchPoint_ne_zero]
  refine ⟨fun hz => List.ext_getElem h fun i h₁ h₂ => ?_, fun hz i hi => by simp [hz, hi]⟩
  simpa [List.getD_eq_getElem?_getD, h₁] using hz i h₂

theorem varBound_matchPoint : ∀ (y : List Int) (j : Nat), (matchPoint j y).varBound ≤ j + y.length
  | [], j => Nat.zero_le _
  | _ :: y, j => by
      have := varBound_matchPoint y (j + 1)
      simp only [matchPoint, PrimExpr.varBound, List.length_cons]
      omega

theorem eval_matchPoint_heap (ρ : Nat → Int) (heap heap' : Heap) :
    ∀ (y : List Int) (j : Nat), (matchPoint j y).eval ρ heap = (matchPoint j y).eval ρ heap'
  | [], _ => rfl
  | _ :: y, j => by simp only [matchPoint, PrimExpr.eval, eval_matchPoint_heap ρ heap heap' y]

theorem eval_tableLookup_heap (ρ : Nat → Int) (heap heap' : Heap) (k : Nat) :
    ∀ t : List (List Int × List Int), (tableLookup k t).eval ρ heap = (tableLookup k t).eval ρ heap'
  | [] => rfl
  | (_, y) :: t => by
      simp only [tableLookup, PrimExpr.eval, eval_matchPoint_heap ρ heap heap' y,
        eval_tableLookup_heap ρ heap heap' k t]

theorem tableLookup_valueAt (k : Nat) {z : List Int} :
    ∀ t : List (List Int × List Int), (∀ p ∈ t, p.2.length = z.length) →
      (tableLookup k t).valueAt z = ((t.find? (·.2 == z)).map (·.1.getD k 0)).getD 0
  | [], _ => rfl
  | (x, y) :: t, h => by
      have hy : z.length = y.length := (h _ (List.mem_cons_self _ _)).symm
      have ht := tableLookup_valueAt k t fun p hp => h p (List.mem_cons_of_mem _ hp)
      by_cases hyz : y = z
      · subst hyz
        rw [tableLookup, valueAt_ifThenElse, if_pos ((matchPoint_valueAt_ne_zero hy).2 rfl)]
        simp
      · rw [tableLookup, valueAt_ifThenElse,
          if_neg ((matchPoint_valueAt_ne_zero hy).not.2 (Ne.symm hyz)), ht]
        simp [List.find?_cons, hyz]

theorem varBound_tableLookup (k n : Nat) :
    ∀ t : List (List Int × List Int), (∀ p ∈ t, p.2.length = n) → (tableLookup k t).varBound ≤ n
  | [], _ => Nat.zero_le _
  | (x, y) :: t, h => by
      have h₁ := varBound_matchPoint y 0
      have h₂ := varBound_tableLookup k n t fun p hp => h p (List.mem_cons_of_mem _ hp)
      have h₃ := h _ (List.mem_cons_self _ _)
      simp only [tableLookup, PrimExpr.varBound] at h₁ h₃ ⊢
      omega

/-- The table of a forward map over a box: each point with its image. -/
def forwardTable (idx : List PrimExpr) (doms : List Range) : List (List Int × List Int) :=
  (boxPoints doms).map fun x => (x, idx.map (·.valueAt x))

theorem tableLookup_forwardTable {idx : List PrimExpr} {doms : List Range} (k : Nat)
    (hnd : ((forwardTable idx doms).map Prod.snd).Nodup) {x : List Int} (hx : InBox doms x) :
    (tableLookup k (forwardTable idx doms)).valueAt (idx.map (·.valueAt x)) = x.getD k 0 := by
  rw [tableLookup_valueAt k _ (by simp [forwardTable])]
  rw [forwardTable, List.map_map] at hnd
  have hfind : (forwardTable idx doms).find? (·.2 == idx.map (·.valueAt x)) =
      some (x, idx.map (·.valueAt x)) := by
    cases h : (forwardTable idx doms).find? (·.2 == idx.map (·.valueAt x)) with
    | none =>
        exact absurd (List.mem_map_of_mem _ (mem_boxPoints.2 hx))
          fun hm => List.find?_eq_none.1 h _ hm (by simp)
    | some p =>
        obtain ⟨x', hx', rfl⟩ := List.mem_map.1 (List.mem_of_find?_eq_some h)
        have heq := List.find?_some h
        simp only [beq_iff_eq] at heq
        rw [List.inj_on_of_nodup_map hnd hx' (mem_boxPoints.2 hx) heq]
  simp [hfind]

/-- An engine that tabulates the forward map and accepts it when no two inputs share an image. -/
def tableEngine : IterMapEngine where
  detect idx doms :=
    if ((forwardTable idx doms).map Prod.snd).Nodup then
      .ok fun k => some (tableLookup k (forwardTable idx doms))
    else .error "the forward map is not injective"
  detect_sound := by
    intro idx doms inv h
    dsimp only at h
    split at h
    · rename_i hnd
      cases h
      refine fun k _ => ⟨fun e he => ?_, fun h => by cases h⟩
      cases he
      exact ⟨varBound_tableLookup k _ _ (by simp [forwardTable]),
        fun ρ heap heap' => eval_tableLookup_heap ρ heap heap' k _,
        fun x hx => tableLookup_forwardTable k hnd hx⟩
    · cases h

/-! ## Inverse and round trip -/

end TileLayout
