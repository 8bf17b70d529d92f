import TileLayout.Box
/-!
# Layout

`LayoutNode` maps a box of input iteration variables to a tuple of output indices.  Inputs are
positional: the index expressions refer to input `k` as `var k`, the role `forward_var_[k]->var`
plays in the source.  `OutputShape` is where the layout code asserts its main invariant, that
every output index ranges over `[0, extent)`; `outputShape_eq_ok_iff` and
`outputShape_eq_of_bijOn` turn that assertion into statements about the forward map.

The analyzer's `Simplify`, applied to every index at construction, rewrites an expression into
one with the same value on the bound box; the model keeps the expression as built.
-/

namespace TileLayout

/-- `ICHECK(cond) << msg`: abort with `msg` unless `cond` holds. -/
def icheck (cond : Bool) (msg : String) : Except String Unit :=
  if cond then pure () else throw msg

@[simp] theorem icheck_eq_ok {cond : Bool} {msg : String} {u : Unit} :
    icheck cond msg = .ok u ↔ cond = true := by
  cases cond <;> simp [icheck, pure, Except.pure, throw, throwThe, MonadExceptOf.throw]

theorem Except.bind_eq_ok {ε α β : Type} {x : Except ε α} {f : α → Except ε β} {b : β} :
    x >>= f = .ok b ↔ ∃ a, x = .ok a ∧ f a = .ok b := by
  cases x <;> simp [bind, Except.bind]

@[simp] theorem Except.ok_bind {ε α β : Type} (a : α) (f : α → Except ε β) :
    (Except.ok a >>= f) = f a := rfl

theorem Except.map_eq_ok {ε α β : Type} {x : Except ε α} {f : α → β} {b : β} :
    f <$> x = .ok b ↔ ∃ a, x = .ok a ∧ f a = b := by
  cases x <;> simp [Functor.map, Except.map]

theorem mapM_eq_ok_iff {ε α β : Type} {f : α → Except ε β} {l : List α} {r : List β} :
    l.mapM f = .ok r ↔ List.Forall₂ (fun a b => f a = .ok b) l r := by
  induction l generalizing r with
  | nil =>
      rw [List.mapM_nil]
      cases r <;> simp [pure, Except.pure]
  | cons a l ih =>
      rw [List.mapM_cons]
      cases r with
      | nil => simp [Except.bind_eq_ok, pure, Except.pure]
      | cons b r =>
          simp only [Except.bind_eq_ok, ih, pure, Except.pure, Except.ok.injEq, List.cons.injEq,
            List.forall₂_cons]
          constructor
          · rintro ⟨b', hb, bs, hbs, rfl, rfl⟩
            exact ⟨hb, hbs⟩
          · rintro ⟨hb, hbs⟩
            exact ⟨b, hb, r, hbs, rfl, rfl⟩

/-- `LayoutNode`: the input domains `forward_var_` and the output indices `forward_index_`. -/
structure Layout where
  forwardVar : List Range
  forwardIndex : List PrimExpr

namespace Layout

/-- `InputDim()`. -/
def inputDim (l : Layout) : Nat := l.forwardVar.length

/-- `OutputDim()`. -/
def outputDim (l : Layout) : Nat := l.forwardIndex.length

/-- `InputShape()`: the extent of each input domain. -/
def inputShape (l : Layout) : List Int := l.forwardVar.map Range.extent

/-- The value of the forward map at an input point. -/
def apply (l : Layout) (x : List Int) : List Int := l.forwardIndex.map (·.valueAt x)

@[simp] theorem length_apply (l : Layout) (x : List Int) : (l.apply x).length = l.outputDim := by
  simp [apply, outputDim]

end Layout

/-- One step of `OutputShape()`: `int_set(index + 1)` must have minimum exactly `1`
(`CHECK(is_one(ist.min())) << ist.min()`), and its maximum is the output extent. -/
def outputExtent (doms : List Range) (e : PrimExpr) : Except String Int :=
  match intSet doms (.add e (.int 1)) with
  | some (lo, hi) => if lo = 1 then pure hi else throw (toString lo)
  | none => throw "empty domain"

/-- `OutputShape()`. -/
def Layout.outputShape (l : Layout) : Except String (List Int) :=
  l.forwardIndex.mapM (outputExtent l.forwardVar)

@[simp] theorem valueAt_add_one (e : PrimExpr) (x : List Int) :
    (PrimExpr.add e (.int 1)).valueAt x = e.valueAt x + 1 := rfl

theorem outputExtent_eq_ok_iff {doms : List Range} {e : PrimExpr} {s : Int} :
    outputExtent doms e = .ok s ↔
      (∃ x, InBox doms x ∧ e.valueAt x = 0) ∧ (∃ x, InBox doms x ∧ e.valueAt x = s - 1) ∧
        ∀ x, InBox doms x → 0 ≤ e.valueAt x ∧ e.valueAt x < s := by
  have hthrow : ∀ msg : String, (throw msg : Except String Int) ≠ .ok s := fun _ h => by cases h
  unfold outputExtent
  split
  · rename_i lo hi hset
    rw [intSet_eq_some] at hset
    obtain ⟨⟨x₀, hx₀, hlo⟩, ⟨x₁, hx₁, hhi⟩, hb⟩ := hset
    simp only [valueAt_add_one] at hlo hhi hb
    split
    · subst_vars
      simp only [pure, Except.pure, Except.ok.injEq]
      constructor
      · rintro rfl
        exact ⟨⟨x₀, hx₀, by omega⟩, ⟨x₁, hx₁, by omega⟩, fun x hx => by have := hb x hx; omega⟩
      · rintro ⟨-, ⟨y, hy, hys⟩, hall⟩
        have h1 := hb y hy
        have h2 := hall x₁ hx₁
        omega
    · refine iff_of_false (hthrow _) fun ⟨⟨y, hy, hy0⟩, _, hall⟩ => ?_
      have h1 := hb y hy
      have h2 := hall x₀ hx₀
      omega
  · rename_i hnone
    refine iff_of_false (hthrow _) fun ⟨⟨x, hx, _⟩, _⟩ => ?_
    obtain ⟨lo, hi, h⟩ := exists_intSet_eq_some (.add e (.int 1)) hx
    simp [h] at hnone

namespace Layout

theorem outputShape_eq_ok_iff {l : Layout} {S : List Int} :
    l.outputShape = .ok S ↔ List.Forall₂ (fun e s => outputExtent l.forwardVar e = .ok s)
      l.forwardIndex S := mapM_eq_ok_iff

/-- Every output coordinate lies in `[0, OutputShape())`. -/
theorem mapsTo_of_outputShape {l : Layout} {S : List Int} (h : l.outputShape = .ok S) :
    Set.MapsTo l.apply (boxSet l.forwardVar) (boxSet (shapeBox S)) := by
  intro x hx
  rw [outputShape_eq_ok_iff, List.forall₂_iff_get] at h
  refine List.forall₂_iff_get.2 ⟨by simp [shapeBox, h.1, outputDim], fun k hk hk' => ?_⟩
  have := (outputExtent_eq_ok_iff.1 (h.2 k (by simpa [outputDim] using hk')
    (by simpa [shapeBox] using hk))).2.2 x hx
  simpa [shapeBox, apply] using this

/-- The layout is well formed and invertible: its inputs start at `0`, `OutputShape()` succeeds,
and the forward map is a bijection from the input box onto `Prod [0, OutputShape())`. -/
def Valid (l : Layout) : Prop :=
  (∀ r ∈ l.forwardVar, r.min = 0) ∧
    ∃ S, l.outputShape = .ok S ∧ Set.BijOn l.apply (boxSet l.forwardVar) (boxSet (shapeBox S))

/-- A forward map that is a bijection onto a box of positive extents has that box as its output
shape: `OutputShape()` succeeds and returns exactly those extents. -/
theorem outputShape_eq_of_bijOn {l : Layout} {S : List Int} (hpos : ∀ s ∈ S, 0 < s)
    (hbij : Set.BijOn l.apply (boxSet l.forwardVar) (boxSet (shapeBox S))) :
    l.outputShape = .ok S := by
  have hz : InBox (shapeBox S) (List.replicate S.length 0) :=
    inBox_shapeBox_iff.2 ⟨by simp, fun k _ h₂ => by simpa using hpos _ (List.getElem_mem h₂)⟩
  obtain ⟨x₀, hx₀, h₀⟩ := hbij.2.2 hz
  have hlen : l.forwardIndex.length = S.length := by
    simpa [outputDim] using congrArg List.length h₀
  rw [outputShape_eq_ok_iff, List.forall₂_iff_get]
  refine ⟨hlen, fun k hk hk' => outputExtent_eq_ok_iff.2 ⟨⟨x₀, hx₀, ?_⟩, ?_, fun x hx => ?_⟩⟩
  · simpa [apply, hk, hk'] using congrArg (·[k]?) h₀
  · have hzk : InBox (shapeBox S) ((List.replicate S.length 0).set k (S[k] - 1)) := by
      refine inBox_shapeBox_iff.2 ⟨by simp, fun j _ h₂ => ?_⟩
      have := hpos _ (List.getElem_mem h₂)
      by_cases hjk : k = j
      · subst hjk; simp; omega
      · simp [List.getElem_set_ne hjk]; omega
    obtain ⟨x₁, hx₁, h₁⟩ := hbij.2.2 hzk
    exact ⟨x₁, hx₁, by simpa [apply, hk, hk'] using congrArg (·[k]?) h₁⟩
  · have := (inBox_shapeBox_iff.1 (hbij.1 hx)).2 k (by simpa [outputDim] using hk) hk'
    simpa [apply] using this

end Layout

end TileLayout
