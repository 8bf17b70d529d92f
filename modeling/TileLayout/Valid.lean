import TileLayout.Repeat
import Mathlib.Tactic.Ring
import Mathlib.Data.List.GetD
/-!
# Validity of the fragment calculus

A valid fragment assigns every `(element, replica)` of its input box exactly one
`(register index, thread)` slot of `Prod [0, OutputShape()) × [0, ThreadExtent())`.  This module
collects what validity gives (positive extents, the bijection itself, the box sizes it
equates) and the coordinatewise facts about repeated boxes that `Repeat` relies on.
-/

namespace TileLayout

/-! ## Box sizes -/

theorem boxCard_eq_of_bijOn {A B : List Range} {f : List Int → List Int}
    (h : Set.BijOn f (boxSet A) (boxSet B)) : boxCard A = boxCard B := by
  have himg : (boxPoints A).toFinset.image f = (boxPoints B).toFinset := by
    ext y
    simp only [Finset.mem_image, List.mem_toFinset, mem_boxPoints]
    constructor
    · rintro ⟨x, hx, rfl⟩
      exact h.1 hx
    · intro hy
      obtain ⟨x, hx, rfl⟩ := h.2.2 hy
      exact ⟨x, hx, rfl⟩
  rw [← length_boxPoints, ← length_boxPoints, ← List.toFinset_card_of_nodup (nodup_boxPoints A),
    ← List.toFinset_card_of_nodup (nodup_boxPoints B), ← himg,
    Finset.card_image_of_injOn fun x hx y hy => h.2.1 (by simpa using hx) (by simpa using hy)]

/-- The size of a box of nonnegative extents is the product of the extents. -/
theorem boxCard_eq_prod {doms : List Range} (h : ∀ r ∈ doms, 0 ≤ r.extent) :
    (boxCard doms : Int) = (doms.map Range.extent).prod := by
  induction doms with
  | nil => rfl
  | cons r rs ih =>
      simp only [List.forall_mem_cons] at h
      rw [boxCard_cons, Nat.cast_mul, ih h.2, Int.toNat_of_nonneg h.1]
      rfl

theorem extent_pos_of_inBox {doms : List Range} {x : List Int} (hx : InBox doms x) :
    ∀ r ∈ doms, 0 < r.extent := by
  induction hx with
  | nil => simp
  | cons hr _ ih =>
      simp only [List.forall_mem_cons]
      exact ⟨by simp only [Range.Contains] at hr; omega, ih⟩

theorem inBox_append_singleton {A : List Range} {r : Range} {p : List Int} :
    InBox (A ++ [r]) p ↔ ∃ x v, p = x ++ [v] ∧ InBox A x ∧ r.Contains v := by
  constructor
  · intro h
    have hlen := h.length_eq
    obtain ⟨x, v, rfl⟩ : ∃ x v, p = x ++ [v] :=
      ⟨p.dropLast, p.getLast (by intro hp; simp [hp] at hlen), (List.dropLast_append_getLast _).symm⟩
    have hx : x.length = A.length := by simpa using hlen
    exact ⟨x, v, rfl, ((inBox_append hx).1 h).1, by simpa using ((inBox_append hx).1 h).2⟩
  · rintro ⟨x, v, rfl, hx, hv⟩
    exact (inBox_append hx.length_eq).2 ⟨hx, by simpa using hv⟩

theorem inBox_shapeBox_append_singleton {S ys : List Int} {t y : Int}
    (hys : ys.length = S.length) :
    InBox (shapeBox (S ++ [t])) (ys ++ [y]) ↔ InBox (shapeBox S) ys ∧ 0 ≤ y ∧ y < t := by
  rw [shapeBox, List.map_append, inBox_append (by simpa [shapeBox] using hys)]
  simp [shapeBox]

/-! ## Repeated boxes -/

/-- A point of a repeated box splits into a point of the original box and a tile digit vector. -/
theorem inBox_repeatRanges {vars : List Range} {c x : List Int} (hmin : ∀ v ∈ vars, v.min = 0)
    (hext : ∀ v ∈ vars, 0 < v.extent) (hc : c.length = vars.length)
    (hx : InBox (repeatRanges vars c) x) :
    InBox vars (modPoint x (vars.map Range.extent)) ∧
      InBox (shapeBox c) (divPoint x (vars.map Range.extent)) := by
  induction vars generalizing c x with
  | nil =>
      cases c <;> simp_all [repeatRanges, modPoint, divPoint, shapeBox]
  | cons v vs ih =>
      obtain _ | ⟨ci, cs⟩ := c
      · simp at hc
      obtain _ | ⟨xi, xs⟩ := x
      · simp [repeatRanges] at hx
      simp only [List.forall_mem_cons] at hmin hext
      simp only [repeatRanges, List.zipWith_cons_cons, inBox_cons_cons, Range.Contains,
        hmin.1, zero_add, sub_zero] at hx
      obtain ⟨h1, h2⟩ := ih hmin.2 hext.2 (Nat.succ.inj hc) hx.2
      have he := hext.1
      refine ⟨inBox_cons_cons.2 ⟨?_, h1⟩, inBox_cons_cons.2 ⟨?_, h2⟩⟩
      · simp only [Range.Contains, hmin.1, zero_add]
        exact ⟨Int.fmod_nonneg' _ he, Int.fmod_lt_of_pos _ he⟩
      · rw [contains_ofExtent, Int.fdiv_eq_ediv _ he.le]
        exact ⟨Int.ediv_nonneg hx.1.1 he.le, Int.ediv_lt_of_lt_mul he (by rw [mul_comm]; exact hx.1.2)⟩

/-- A point is determined by its coordinatewise quotients and remainders. -/
theorem eq_of_modPoint_divPoint {x y shape : List Int} (hx : x.length = shape.length)
    (hy : y.length = shape.length) (hm : modPoint x shape = modPoint y shape)
    (hd : divPoint x shape = divPoint y shape) : x = y := by
  induction shape generalizing x y with
  | nil => simp_all
  | cons e es ih =>
      obtain _ | ⟨xi, xs⟩ := x
      · simp at hx
      obtain _ | ⟨yi, ys⟩ := y
      · simp at hy
      simp only [modPoint, divPoint, List.zipWith_cons_cons, List.cons.injEq] at hm hd
      rw [← Int.fmod_add_fdiv xi e, ← Int.fmod_add_fdiv yi e, hm.1, hd.1,
        ih (Nat.succ.inj hx) (Nat.succ.inj hy) hm.2 hd.2]

theorem prod_repeatRanges {vars : List Range} {c : List Int} (hmin : ∀ v ∈ vars, v.min = 0)
    (hc : c.length = vars.length) :
    ((repeatRanges vars c).map Range.extent).prod = (vars.map Range.extent).prod * c.prod := by
  induction vars generalizing c with
  | nil => cases c <;> simp_all [repeatRanges]
  | cons v vs ih =>
      obtain _ | ⟨ci, cs⟩ := c
      · simp at hc
      simp only [List.forall_mem_cons] at hmin
      simp only [repeatRanges] at ih
      simp only [repeatRanges, List.zipWith_cons_cons, List.map_cons, List.prod_cons,
        ih hmin.2 (Nat.succ.inj hc), hmin.1, sub_zero]
      ring

theorem mem_repeatRanges {vars : List Range} {c : List Int} {r : Range}
    (h : r ∈ repeatRanges vars c) : ∃ v ∈ vars, ∃ ci ∈ c, r = ⟨v.min, v.extent * ci - v.min⟩ := by
  induction vars generalizing c with
  | nil => simp [repeatRanges] at h
  | cons v vs ih =>
      obtain _ | ⟨ci, cs⟩ := c
      · simp [repeatRanges] at h
      simp only [repeatRanges, List.zipWith_cons_cons, List.mem_cons] at h
      rcases h with rfl | h
      · exact ⟨v, List.mem_cons_self _ _, ci, List.mem_cons_self _ _, rfl⟩
      · obtain ⟨w, hw, cj, hcj, rfl⟩ := ih h
        exact ⟨w, List.mem_cons_of_mem _ hw, cj, List.mem_cons_of_mem _ hcj, rfl⟩

theorem min_repeatRanges {vars : List Range} {c : List Int} (hmin : ∀ v ∈ vars, v.min = 0) :
    ∀ r ∈ repeatRanges vars c, r.min = 0 := by
  intro r hr
  obtain ⟨v, hv, ci, -, rfl⟩ := mem_repeatRanges hr
  exact hmin v hv

theorem extent_repeatRanges_pos {vars : List Range} {c : List Int} (hmin : ∀ v ∈ vars, v.min = 0)
    (hext : ∀ v ∈ vars, 0 < v.extent) (hc : ∀ ci ∈ c, 0 < ci) :
    ∀ r ∈ repeatRanges vars c, 0 < r.extent := by
  intro r hr
  obtain ⟨v, hv, ci, hci, rfl⟩ := mem_repeatRanges hr
  simpa only [hmin v hv, sub_zero] using Int.mul_pos (hext v hv) (hc ci hci)

theorem map_extent_repeatRanges {vars : List Range} (hmin : ∀ v ∈ vars, v.min = 0) (c : List Int) :
    (repeatRanges vars c).map Range.extent =
      List.zipWith (fun e ci => e * ci) (vars.map Range.extent) c := by
  induction vars generalizing c with
  | nil => simp [repeatRanges]
  | cons v vs ih =>
      simp only [List.forall_mem_cons] at hmin
      cases c with
      | nil => simp [repeatRanges]
      | cons ci cs => simpa [repeatRanges, hmin.1] using ih hmin.2 cs

/-- The counting side condition of `bijOn_of_injOn` for a target `Prod [0, S)`, from the products
of the extents. -/
theorem boxCard_shapeBox_le {S : List Int} {A : List Range} (hS : ∀ s ∈ S, 0 ≤ s)
    (hA : ∀ r ∈ A, 0 ≤ r.extent) (h : S.prod = (A.map Range.extent).prod) :
    boxCard (shapeBox S) ≤ boxCard A := by
  have hS' : ∀ r ∈ shapeBox S, 0 ≤ r.extent := by simpa [shapeBox, Range.ofExtent] using hS
  exact le_of_eq (Int.ofNat_inj.1 (by
    rw [boxCard_eq_prod hS', boxCard_eq_prod hA, map_extent_shapeBox, h]))

/-! ## What validity gives -/

theorem exists_of_forall₂_of_mem {α β : Type} {R : α → β → Prop} {l₁ : List α} {l₂ : List β}
    (h : List.Forall₂ R l₁ l₂) {b : β} (hb : b ∈ l₂) : ∃ a ∈ l₁, R a b := by
  induction h with
  | nil => simp at hb
  | cons hab _ ih =>
      rcases List.mem_cons.1 hb with rfl | hb
      · exact ⟨_, List.mem_cons_self _ _, hab⟩
      · obtain ⟨a, ha, hr⟩ := ih hb
        exact ⟨a, List.mem_cons_of_mem _ ha, hr⟩

theorem outputExtent_pos {doms : List Range} {e : PrimExpr} {s : Int}
    (h : outputExtent doms e = .ok s) : 0 < s := by
  obtain ⟨⟨x, hx, h0⟩, -, hb⟩ := outputExtent_eq_ok_iff.1 h
  have := hb x hx
  omega

namespace Fragment

variable {F : Fragment} {L : List Int} {T : Int}

theorem Valid.bijOn (hF : F.Valid) (hL : F.outputShape = .ok L) (hT : F.threadExtent = .ok T) :
    Set.BijOn F.fullLayout.apply (boxSet F.boundVars) (boxSet (shapeBox (L ++ [T]))) := by
  obtain ⟨⟨-, S, hS, hbij⟩, -⟩ := hF
  obtain ⟨L', T', hL', hT', rfl⟩ := fullLayout_outputShape_eq_ok.1 hS
  rw [hL] at hL'
  rw [hT] at hT'
  cases hL'
  cases hT'
  exact hbij

theorem Valid.min_eq_zero (hF : F.Valid) : ∀ r ∈ F.boundVars, r.min = 0 := hF.1.1

theorem Valid.min_forwardVar (hF : F.Valid) : ∀ v ∈ F.forwardVar, v.min = 0 :=
  fun v hv => hF.min_eq_zero v (List.mem_append_left _ hv)

theorem Valid.min_threadReplicate (hF : F.Valid) : F.threadReplicate.min = 0 :=
  hF.min_eq_zero _ (List.mem_append_right _ (List.mem_singleton_self _))

theorem length_outputShape (hL : F.outputShape = .ok L) : L.length = F.outputDim :=
  (List.Forall₂.length_eq (mapM_eq_ok_iff.1 hL)).symm

theorem Valid.threadExtent_pos (hT : F.threadExtent = .ok T) : 0 < T := outputExtent_pos hT

theorem Valid.outputShape_pos (hL : F.outputShape = .ok L) : ∀ s ∈ L, 0 < s := by
  intro s hs
  obtain ⟨e, -, he⟩ := exists_of_forall₂_of_mem (mapM_eq_ok_iff.1 hL) hs
  exact outputExtent_pos he

/-- The box of a fragment whose thread extent is known is not empty: every extent is positive. -/
theorem extent_pos_of_threadExtent (hT : F.threadExtent = .ok T) :
    ∀ r ∈ F.boundVars, 0 < r.extent := by
  obtain ⟨⟨x, hx, -⟩, -⟩ := outputExtent_eq_ok_iff.1 hT
  exact extent_pos_of_inBox hx

theorem extent_pos_forwardVar (hT : F.threadExtent = .ok T) : ∀ v ∈ F.forwardVar, 0 < v.extent :=
  fun v hv => extent_pos_of_threadExtent hT v (List.mem_append_left _ hv)

theorem replicateExtent_pos (hT : F.threadExtent = .ok T) : 0 < F.replicateExtent :=
  extent_pos_of_threadExtent hT _ (List.mem_append_right _ (List.mem_singleton_self _))

/-- At a point of its box, a valid fragment's index lies in `Prod [0, OutputShape())` and its
thread in `[0, ThreadExtent())`. -/
theorem Valid.slot_mem (hF : F.Valid) (hL : F.outputShape = .ok L) (hT : F.threadExtent = .ok T)
    {x : List Int} {r : Int} (hx : InBox F.forwardVar x) (hr : F.threadReplicate.Contains r) :
    InBox (shapeBox L) (F.indexAt x r) ∧ 0 ≤ F.threadAt x r ∧ F.threadAt x r < T := by
  have h := (hF.bijOn hL hT).1 (inBox_append_singleton.2 ⟨x, r, rfl, hx, hr⟩)
  rwa [boxSet, Set.mem_setOf_eq, fullLayout_apply, inBox_shapeBox_append_singleton] at h
  simp [indexAt, length_outputShape hL, outputDim]

/-- A valid fragment's slot determines the element and the replica. -/
theorem Valid.eq_of_slot_eq (hF : F.Valid) (hL : F.outputShape = .ok L)
    (hT : F.threadExtent = .ok T) {x y : List Int} {r s : Int} (hx : InBox F.forwardVar x)
    (hr : F.threadReplicate.Contains r) (hy : InBox F.forwardVar y)
    (hs : F.threadReplicate.Contains s) (hi : F.indexAt x r = F.indexAt y s)
    (ht : F.threadAt x r = F.threadAt y s) : x = y ∧ r = s := by
  have h := (hF.bijOn hL hT).2.1 (inBox_append_singleton.2 ⟨x, r, rfl, hx, hr⟩)
    (inBox_append_singleton.2 ⟨y, s, rfl, hy, hs⟩) (by rw [fullLayout_apply, fullLayout_apply, hi, ht])
  exact (List.append_inj' h rfl).imp id List.singleton_inj.1

/-- The converse of `Valid.bijOn`: a fragment whose domains start at `0`, whose index ignores the
replica, and whose full map is a bijection onto a box of positive extents is valid, with that
box as `OutputShape()` and `ThreadExtent()`. -/
theorem valid_of_bijOn (hmin : ∀ r ∈ F.boundVars, r.min = 0) (hfree : F.IndexFree)
    (hL : ∀ s ∈ L, 0 < s) (hT : 0 < T)
    (hbij : Set.BijOn F.fullLayout.apply (boxSet F.boundVars) (boxSet (shapeBox (L ++ [T])))) :
    F.Valid ∧ F.outputShape = .ok L ∧ F.threadExtent = .ok T := by
  have hS : F.fullLayout.outputShape = .ok (L ++ [T]) :=
    Layout.outputShape_eq_of_bijOn (by simpa [or_imp, forall_and] using ⟨hL, hT⟩) hbij
  obtain ⟨L', T', hL', hT', heq⟩ := fullLayout_outputShape_eq_ok.1 hS
  obtain ⟨rfl, hTT⟩ := List.append_inj' heq rfl
  cases List.singleton_inj.1 hTT
  exact ⟨⟨⟨hmin, _, hS, hbij⟩, hfree⟩, hL', hT'⟩

/-- A valid fragment together with its extents: input shape `S`, `OutputShape()` `L`,
`ThreadExtent()` `T` and `ReplicateExtent()` `R`.  The factories are proved correct by tracking
this through every `Repeat` and `Replicate`. -/
structure ValidAt (F : Fragment) (S L : List Int) (T R : Int) : Prop where
  valid : F.Valid
  inputShape_eq : F.inputShape = S
  outputShape_eq : F.outputShape = .ok L
  threadExtent_eq : F.threadExtent = .ok T
  replicateExtent_eq : F.replicateExtent = R

/-- The domains of a valid fragment are `[0, S_i)`. -/
theorem ValidAt.forwardVar_eq {S : List Int} {R : Int} (h : F.ValidAt S L T R) :
    F.forwardVar = shapeBox S := by
  have hv : ∀ v ∈ F.forwardVar, v = Range.ofExtent v.extent := fun v hv => by
    cases v
    simp [Range.ofExtent, ← h.valid.min_forwardVar _ hv]
  rw [← h.inputShape_eq, inputShape, shapeBox, List.map_map]
  conv_lhs => rw [← List.map_id F.forwardVar]
  exact List.map_congr_left hv

/-- At a point of its box and a replica, a valid fragment's thread lies in `[0, T)`. -/
theorem ValidAt.threadAt_mem {S : List Int} {R : Int} (h : F.ValidAt S L T R) {x : List Int}
    {r : Int} (hx : InBox (shapeBox S) x) (hr : 0 ≤ r ∧ r < R) :
    0 ≤ F.threadAt x r ∧ F.threadAt x r < T := by
  refine (h.valid.slot_mem h.outputShape_eq h.threadExtent_eq (h.forwardVar_eq ▸ hx) ?_).2
  simpa [Range.Contains, h.valid.min_threadReplicate, ← h.replicateExtent_eq, replicateExtent]
    using hr

/-- The number of `(element, replica)` pairs equals the number of `(index, thread)` slots. -/
theorem Valid.volume_eq (hF : F.Valid) (hL : F.outputShape = .ok L)
    (hT : F.threadExtent = .ok T) :
    (F.boundVars.map Range.extent).prod = L.prod * T := by
  have hcard := boxCard_eq_of_bijOn (hF.bijOn hL hT)
  have hpos := extent_pos_of_threadExtent hT
  have hLpos := Valid.outputShape_pos hL
  rw [← boxCard_eq_prod fun r hr => (hpos r hr).le, hcard, boxCard_eq_prod]
  · simp [shapeBox, Function.comp_def, Range.ofExtent]
  · simp only [shapeBox, List.map_append, List.mem_append, List.mem_map, List.mem_singleton]
    rintro r (⟨s, hs, rfl⟩ | ⟨_, rfl, rfl⟩)
    · exact (hLpos s hs).le
    · exact (Valid.threadExtent_pos hT).le

end Fragment

/-! ## Deciding validity

Validity quantifies over a box, so on a concrete layout it can be decided by enumeration; the
concrete fragments and layouts below are checked this way. -/

namespace Layout

/-- Decides `Valid` by enumerating the input box: every domain starts at `0`, `OutputShape()`
succeeds, the images of the box points are distinct, and there are as many points as slots. -/
def checkValid (l : Layout) : Bool :=
  l.forwardVar.all (·.min == 0) &&
    match l.outputShape with
    | .ok S => decide ((boxPoints l.forwardVar).map l.apply).Nodup &&
        decide (boxCard (shapeBox S) ≤ boxCard l.forwardVar)
    | .error _ => false

theorem valid_of_checkValid {l : Layout} (h : l.checkValid = true) : l.Valid := by
  unfold checkValid at h
  simp only [Bool.and_eq_true, List.all_eq_true, beq_iff_eq] at h
  obtain ⟨hmin, h⟩ := h
  split at h
  · rename_i S hS
    simp only [Bool.and_eq_true, decide_eq_true_eq] at h
    refine ⟨hmin, S, hS, bijOn_of_injOn (mapsTo_of_outputShape hS) ?_ h.2⟩
    exact fun x hx y hy => List.inj_on_of_nodup_map h.1 (mem_boxPoints.2 hx) (mem_boxPoints.2 hy)
  · cases h

end Layout

namespace Fragment

theorem getD_append_singleton_of_ne {x : List Int} {v : Nat} (hv : v ≠ x.length) (r r' : Int) :
    (x ++ [r]).getD v 0 = (x ++ [r']).getD v 0 := by
  rcases Nat.lt_or_gt_of_ne hv with h | h
  · simp [List.getD_eq_getElem?_getD, List.getElem?_append_left h]
  · rw [List.getD_eq_default _ _ (by simp; omega), List.getD_eq_default _ _ (by simp; omega)]

/-- An index that does not read the replica variable is a function of the inputs. -/
theorem indexFree_of_freeOf {F : Fragment} (h : ∀ e ∈ F.forwardIndex, e.freeOf F.inputDim = true) :
    F.IndexFree := by
  intro x hx r r'
  exact List.map_congr_left fun e he => PrimExpr.eval_congr_of_freeOf
    (fun v hv => getD_append_singleton_of_ne (hx ▸ hv) r r') _ e (h e he)

/-- Decides `Valid` for a fragment: the full layout passes `Layout.checkValid` and no index reads
the replica. -/
def checkValid (F : Fragment) : Bool :=
  F.fullLayout.checkValid && F.forwardIndex.all (·.freeOf F.inputDim)

theorem valid_of_checkValid {F : Fragment} (h : F.checkValid = true) : F.Valid := by
  simp only [checkValid, Bool.and_eq_true, List.all_eq_true] at h
  exact ⟨Layout.valid_of_checkValid h.1, indexFree_of_freeOf h.2⟩

end Fragment

end TileLayout
