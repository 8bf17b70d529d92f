import TileLayout.Growth
import Mathlib.Data.Int.GCD
/-!
# DeReplicate

`DeReplicate()` trades replication for register storage.  With `f = gcd(ReplicateExtent(), L)`
for the register extent `L`, the register index `i` of an element becomes `i / f`, and the digit
`i % f` selects which old replica `r' * f + i % f` the element's new replica `r'` takes.  This
module proves what the operation keeps for every fragment: the new extents, and every thread of
the result is a thread the element already had.  It stays collision-free when the thread
determines the replica; without that condition a valid fragment collides after
`DeReplicate` (`deReplicate_collides`).
-/

namespace TileLayout

namespace Fragment

variable {F : Fragment} {l : Int}

/-- `DeReplicate()` with factor `f`, when `f` is not `1`. -/
def deReplicateWith (F : Fragment) (f : Int) : Fragment :=
  ⟨F.forwardVar, [.floorDiv (F.forwardIndex.getD 0 (.int 0)) (.int f)],
    F.forwardThread.subst (deReplicateVmap F.inputDim f (F.forwardIndex.getD 0 (.int 0))),
    Range.ofExtent (F.replicateExtent.tdiv f)⟩

theorem deReplicate_eq (hL : F.outputShape = .ok [l])
    (hf : zeroAwareGCD F.replicateExtent l ≠ 1) :
    F.deReplicate = .ok (F.deReplicateWith (zeroAwareGCD F.replicateExtent l)) := by
  have hdim : F.outputDim = 1 := by simpa using (length_outputShape hL).symm
  simp [Fragment.deReplicate, hdim, hL, hf, Fragment.make, icheck, deReplicateWith,
    Range.ofExtent, bind, Except.bind, pure, Except.pure]

theorem deReplicate_eq_self (hL : F.outputShape = .ok [l])
    (hf : zeroAwareGCD F.replicateExtent l = 1) : F.deReplicate = .ok F := by
  have hdim : F.outputDim = 1 := by simpa using (length_outputShape hL).symm
  simp [Fragment.deReplicate, hdim, hL, hf, icheck, bind, Except.bind, pure, Except.pure]

theorem indexAt_deReplicateWith {e : PrimExpr} (he : F.forwardIndex = [e]) (f : Int)
    (x : List Int) (r : Int) :
    (F.deReplicateWith f).indexAt x r = [Int.fdiv (e.valueAt (x ++ [r])) f] := by
  simp [indexAt, deReplicateWith, he]

/-- New replica `r` of an element reads old replica `i % f + f * r` for its register index `i`. -/
theorem threadAt_deReplicateWith {e : PrimExpr} (he : F.forwardIndex = [e]) (f : Int)
    {x : List Int} (r : Int) (hx : x.length = F.inputDim) :
    (F.deReplicateWith f).threadAt x r =
      F.threadAt x (Int.fmod (e.valueAt (x ++ [r])) f + f * r) := by
  have hv : deReplicateVmap F.inputDim f e = fun k => if k = F.inputDim then
      some (.add (.mul (.var F.inputDim) (.int f)) (.floorMod e (.int f))) else none := rfl
  simp only [threadAt, deReplicateWith, he, List.getD_cons_zero, hv, valueAt_subst_last hx,
    valueAt_add, valueAt_mul, valueAt_var, valueAt_int, valueAt_floorMod]
  simp [List.getElem?_append_right (le_of_eq hx), hx, add_comm, mul_comm]

theorem outputExtent_of_singleton {e : PrimExpr} (he : F.forwardIndex = [e])
    (hL : F.outputShape = .ok [l]) : outputExtent F.boundVars e = .ok l := by
  have h := mapM_eq_ok_iff.1 hL
  rw [he] at h
  exact (List.forall₂_cons.1 h).1

/-- `DeReplicate()`'s factor is a positive common divisor of the replica and register extents. -/
theorem zeroAwareGCD_spec {R : Int} (hR : 0 < R) (l : Int) :
    0 < zeroAwareGCD R l ∧ zeroAwareGCD R l ∣ R ∧ zeroAwareGCD R l ∣ l :=
  ⟨Int.ofNat_pos.2 (Int.gcd_pos_of_ne_zero_left l hR.ne'), Int.gcd_dvd_left, Int.gcd_dvd_right⟩

section General

variable {e : PrimExpr} {f : Int}

/-- `DeReplicate` with a factor `f` dividing both extents: register indices land in `[0, L / f)`,
each new replica reads an old replica, and the result is injective when the old fragment is
and its thread determines the replica. -/
theorem deReplicateWith_spec (hL : F.outputShape = .ok [l]) (he : F.forwardIndex = [e])
    (hmin : ∀ r ∈ F.boundVars, r.min = 0) (hfree : F.IndexFree) (hf : 0 < f)
    (hfR : f ∣ F.replicateExtent) (hfl : f ∣ l) :
    (∀ x r', InBox F.forwardVar x → 0 ≤ r' → r' < F.replicateExtent / f →
      (∃ i, (F.deReplicateWith f).indexAt x r' = [i] ∧ 0 ≤ i ∧ i < l / f) ∧
      ∃ r, 0 ≤ r ∧ r < F.replicateExtent ∧ (F.deReplicateWith f).threadAt x r' = F.threadAt x r) ∧
    (Set.InjOn F.fullLayout.apply (boxSet F.boundVars) →
      (∀ x₁ x₂ r₁ r₂, InBox F.forwardVar x₁ → InBox F.forwardVar x₂ → 0 ≤ r₁ →
        r₁ < F.replicateExtent → 0 ≤ r₂ → r₂ < F.replicateExtent →
        F.threadAt x₁ r₁ = F.threadAt x₂ r₂ → r₁ = r₂) →
      Set.InjOn (F.deReplicateWith f).fullLayout.apply (boxSet (F.deReplicateWith f).boundVars)) := by
  have hidx := (outputExtent_eq_ok_iff.1 (outputExtent_of_singleton he hL)).2.2
  have hR : 0 < F.replicateExtent :=
    extent_pos_of_inBox (outputExtent_eq_ok_iff.1 (outputExtent_of_singleton he hL)).1.choose_spec.1
      _ (List.mem_append_right _ (List.mem_singleton_self _))
  have hrep : ∀ r, F.threadReplicate.Contains r ↔ 0 ≤ r ∧ r < F.replicateExtent := fun r => by
    simp [Range.Contains, hmin _ (List.mem_append_right _ (List.mem_singleton_self _)),
      replicateExtent]
  have hRf : F.replicateExtent / f ≤ F.replicateExtent := Int.ediv_le_self _ hR.le
  have hRf' : f * (F.replicateExtent / f) = F.replicateExtent := Int.mul_ediv_cancel' hfR
  -- the register index of an element, at any replica of the old domain
  have hval : ∀ x r, InBox F.forwardVar x → 0 ≤ r → r < F.replicateExtent →
      0 ≤ e.valueAt (x ++ [r]) ∧ e.valueAt (x ++ [r]) < l := fun x r hx h0 h1 =>
    hidx _ (inBox_append_singleton.2 ⟨x, r, rfl, hx, (hrep r).2 ⟨h0, h1⟩⟩)
  have hold : ∀ x r', InBox F.forwardVar x → 0 ≤ r' → r' < F.replicateExtent / f →
      0 ≤ Int.fmod (e.valueAt (x ++ [r'])) f + f * r' ∧
        Int.fmod (e.valueAt (x ++ [r'])) f + f * r' < F.replicateExtent := fun x r' _ h0 h1 => by
    have := add_mul_bounds (fmod_mem (e.valueAt (x ++ [r'])) hf) ⟨h0, h1⟩
    rwa [hRf'] at this
  refine ⟨fun x r' hx h0 h1 => ⟨?_, ?_⟩, fun hinj hH => ?_⟩
  · have hi := hval x r' hx h0 (by omega)
    refine ⟨_, indexAt_deReplicateWith he f x r', ?_⟩
    rw [Int.fdiv_eq_ediv _ hf.le]
    exact ⟨Int.ediv_nonneg hi.1 hf.le,
      Int.ediv_lt_of_lt_mul hf (by rw [Int.ediv_mul_cancel hfl]; exact hi.2)⟩
  · exact ⟨_, (hold x r' hx h0 h1).1, (hold x r' hx h0 h1).2,
      threadAt_deReplicateWith he f r' hx.length_eq⟩
  · intro p hp p' hp' h
    obtain ⟨x, r, rfl, hx, hr⟩ := inBox_append_singleton.1 hp
    obtain ⟨y, s, rfl, hy, hs⟩ := inBox_append_singleton.1 hp'
    simp only [deReplicateWith, Range.ofExtent, Range.Contains, zero_add,
      Int.tdiv_eq_ediv hR.le hf.le] at hr hs
    rw [fullLayout_apply, fullLayout_apply, indexAt_deReplicateWith he, indexAt_deReplicateWith he,
      threadAt_deReplicateWith he f r hx.length_eq, threadAt_deReplicateWith he f s hy.length_eq]
      at h
    obtain ⟨hi, ht⟩ := List.append_inj' h rfl
    have hρ := hH x y _ _ hx hy (hold x r hx hr.1 hr.2).1 (hold x r hx hr.1 hr.2).2
      (hold y s hy hs.1 hs.2).1 (hold y s hy hs.1 hs.2).2 (List.singleton_inj.1 ht)
    obtain ⟨hm, rfl⟩ := eq_of_add_mul_eq (fmod_mem _ hf) (fmod_mem _ hf) hρ
    have hii : e.valueAt (x ++ [r]) = e.valueAt (y ++ [r]) := by
      rw [← Int.fmod_add_fdiv (e.valueAt (x ++ [r])) f, ← Int.fmod_add_fdiv (e.valueAt (y ++ [r])) f,
        hm, List.singleton_inj.1 hi]
    have hF := hinj (inBox_append_singleton.2 ⟨x, _, rfl, hx, (hrep _).2 (hold x r hx hr.1 hr.2)⟩)
      (inBox_append_singleton.2 ⟨y, _, rfl, hy, (hrep _).2 (hold y r hy hs.1 hs.2)⟩)
      (by rw [fullLayout_apply, fullLayout_apply, List.singleton_inj.1 ht, hm,
        hfree x hx.length_eq _ r, hfree y hy.length_eq _ r]
          simp [indexAt, he, hii])
    rw [(List.append_inj' hF rfl).1]

end General

/-- A fragment whose every thread is a thread of `F` at the same element has a `ThreadExtent()`
no larger than `F`'s. -/
theorem threadExtent_le_of_threads {G : Fragment} {T T' : Int} (hT : F.threadExtent = .ok T)
    (hT' : G.threadExtent = .ok T')
    (hsub : ∀ x r', InBox G.boundVars (x ++ [r']) →
      ∃ r, InBox F.boundVars (x ++ [r]) ∧ G.threadAt x r' = F.threadAt x r) : T' ≤ T := by
  obtain ⟨-, ⟨p, hp, hpv⟩, -⟩ := outputExtent_eq_ok_iff.1 hT'
  obtain ⟨x, r', rfl, -, -⟩ := inBox_append_singleton.1 hp
  obtain ⟨r, hr, hth⟩ := hsub x r' hp
  have := ((outputExtent_eq_ok_iff.1 hT).2.2 _ hr).2
  change G.threadAt x r' = T' - 1 at hpv
  change F.threadAt x r < T at this
  omega

/-- `DeReplicate()` of a fragment with one register index of extent `l` succeeds; with
`f = gcd(ReplicateExtent(), l)`, the result has `ReplicateExtent() / f` replicas and register
indices in `[0, l / f)`, every new replica of an element runs on a thread that already held the
element, so `ThreadExtent()` of the result, when its check passes, is at most that of `F`, and the
result is collision-free when `F` is and the thread of `F` determines the replica.  The check of
`ThreadExtent()` can fail on the result even when it passes on `F`: the threads the result keeps
need not include `0`. -/
theorem deReplicate_spec (hL : F.outputShape = .ok [l]) (hmin : ∀ r ∈ F.boundVars, r.min = 0)
    (hfree : F.IndexFree) :
    ∃ G, F.deReplicate = .ok G ∧ G.forwardVar = F.forwardVar ∧
      G.replicateExtent = F.replicateExtent / zeroAwareGCD F.replicateExtent l ∧
      (∀ x r', InBox F.forwardVar x → 0 ≤ r' → r' < G.replicateExtent →
        (∃ i, G.indexAt x r' = [i] ∧ 0 ≤ i ∧ i < l / zeroAwareGCD F.replicateExtent l) ∧
        ∃ r, 0 ≤ r ∧ r < F.replicateExtent ∧ G.threadAt x r' = F.threadAt x r) ∧
      (∀ T T', F.threadExtent = .ok T → G.threadExtent = .ok T' → T' ≤ T) ∧
      (Set.InjOn F.fullLayout.apply (boxSet F.boundVars) →
        (∀ x₁ x₂ r₁ r₂, InBox F.forwardVar x₁ → InBox F.forwardVar x₂ → 0 ≤ r₁ →
          r₁ < F.replicateExtent → 0 ≤ r₂ → r₂ < F.replicateExtent →
          F.threadAt x₁ r₁ = F.threadAt x₂ r₂ → r₁ = r₂) →
        Set.InjOn G.fullLayout.apply (boxSet G.boundVars)) := by
  obtain ⟨e, he⟩ := forwardIndex_eq_singleton hL
  have hbox := outputExtent_eq_ok_iff.1 (outputExtent_of_singleton he hL)
  have hR : 0 < F.replicateExtent := extent_pos_of_inBox hbox.1.choose_spec.1 _
    (List.mem_append_right _ (List.mem_singleton_self _))
  have hrep : ∀ r, F.threadReplicate.Contains r ↔ 0 ≤ r ∧ r < F.replicateExtent := fun r => by
    simp [Range.Contains, hmin _ (List.mem_append_right _ (List.mem_singleton_self _)),
      replicateExtent]
  obtain ⟨hf, hfR, hfl⟩ := zeroAwareGCD_spec hR l
  by_cases h1 : zeroAwareGCD F.replicateExtent l = 1
  · refine ⟨F, deReplicate_eq_self hL h1, rfl, by rw [h1, Int.ediv_one], fun x r' hx h0 hr =>
      ⟨⟨e.valueAt (x ++ [r']), by simp [indexAt, he], ?_⟩, r', h0, hr, rfl⟩, fun T T' hT hT' => ?_, fun hinj _ => hinj⟩
    · rw [h1, Int.ediv_one]
      exact hbox.2.2 _ (inBox_append_singleton.2 ⟨x, r', rfl, hx, (hrep r').2 ⟨h0, hr⟩⟩)
    · rw [hT] at hT'
      cases hT'
      exact le_rfl
  · obtain ⟨hpt, hinj⟩ := deReplicateWith_spec hL he hmin hfree hf hfR hfl
    have hG : (F.deReplicateWith (zeroAwareGCD F.replicateExtent l)).replicateExtent =
        F.replicateExtent / zeroAwareGCD F.replicateExtent l :=
      Int.tdiv_eq_ediv hR.le hf.le
    refine ⟨_, deReplicate_eq hL h1, rfl, hG, fun x r' hx h0 hr => hpt x r' hx h0 (hG ▸ hr),
      fun T T' hT hT' => threadExtent_le_of_threads hT hT' fun x r' hp => ?_, hinj⟩
    obtain ⟨x, r', hxr, hx, hr'⟩ := inBox_append_singleton.1 hp
    obtain ⟨rfl, rfl⟩ := List.append_inj' hxr rfl |>.imp id List.singleton_inj.1
    simp only [deReplicateWith, Range.ofExtent, Range.Contains, zero_add, Int.tdiv_eq_ediv hR.le hf.le]
      at hr'
    obtain ⟨r, h0, hr, hth⟩ := (hpt x r' hx hr'.1 hr'.2).2
    exact ⟨r, inBox_append_singleton.2 ⟨x, r, rfl, hx, (hrep r).2 ⟨h0, hr⟩⟩, hth⟩

/-- Two elements, two replicas.  With replica `rep` on thread `rep`, `DeReplicate()` folds the
replica into the register index and stays collision-free.  With element `x` and replica `rep` on
thread `(x + rep + 1) % 2`, the replica becomes `x % 2`, both elements move to thread `1`, and
`ThreadExtent()` of the result fails its check that threads start at `0`. -/
theorem deReplicate_spec_pair :
    (let F : Fragment := ⟨[Range.ofExtent 2], [.var 0], .var 1, Range.ofExtent 2⟩
    F.outputShape = .ok [2] ∧ (∀ r ∈ F.boundVars, r.min = 0) ∧ F.IndexFree ∧
      ∃ G, F.deReplicate = .ok G ∧ G.replicateExtent = 1 ∧
        Set.InjOn G.fullLayout.apply (boxSet G.boundVars)) ∧
    (let F : Fragment := ⟨[Range.ofExtent 2], [.var 0],
      .floorMod (.add (.add (.var 0) (.var 1)) (.int 1)) (.int 2), Range.ofExtent 2⟩
    F.outputShape = .ok [2] ∧ (∀ r ∈ F.boundVars, r.min = 0) ∧ F.IndexFree ∧
      F.threadExtent = .ok 2 ∧ ∃ G, F.deReplicate = .ok G ∧ G.replicateExtent = 1 ∧
        ∀ T, G.threadExtent ≠ .ok T) := by
  constructor
  · intro F
    have hL : F.outputShape = .ok [2] := rfl
    have hmin : ∀ r ∈ F.boundVars, r.min = 0 := by decide
    have hfree : F.IndexFree := indexFree_of_freeOf (by decide)
    obtain ⟨G, hG, -, hR, -, -, hinj⟩ := deReplicate_spec hL hmin hfree
    refine ⟨hL, hmin, hfree, G, hG, hR.trans (by decide),
      hinj ((valid_of_checkValid (by decide)).bijOn hL (show F.threadExtent = .ok 2 from rfl)).injOn
        fun x₁ x₂ r₁ r₂ hx₁ hx₂ _ _ _ _ h => ?_⟩
    obtain ⟨a, rfl⟩ := List.length_eq_one.1 hx₁.length_eq
    obtain ⟨b, rfl⟩ := List.length_eq_one.1 hx₂.length_eq
    simpa [threadAt] using h
  · intro F
    have hL : F.outputShape = .ok [2] := rfl
    have hmin : ∀ r ∈ F.boundVars, r.min = 0 := by decide
    have hfree : F.IndexFree := indexFree_of_freeOf (by decide)
    obtain ⟨G, hG, -, hR, -, -, -⟩ := deReplicate_spec hL hmin hfree
    obtain rfl := Except.ok.inj (hG.symm.trans (deReplicate_eq hL (by decide)))
    refine ⟨hL, hmin, hfree, rfl, _, hG, hR.trans (by decide), fun T hT => ?_⟩
    have hfail : (F.deReplicateWith (zeroAwareGCD F.replicateExtent 2)).threadExtent.toBool = false := by
      decide
    rw [hT] at hfail
    nomatch hfail

/-- A valid fragment that `DeReplicate()` makes collide: two elements, two replicas, element `x`
with replica `rep` on thread `(x + rep) % 2`.  The factor is `gcd(2, 2) = 2`; both elements then
take register `0` on thread `0`. -/
theorem deReplicate_collides :
    let F : Fragment := ⟨[Range.ofExtent 2], [.var 0], .floorMod (.add (.var 0) (.var 1)) (.int 2),
      Range.ofExtent 2⟩
    F.Valid ∧ F.outputShape = .ok [2] ∧ F.replicateExtent = 2 ∧
      ∃ G, F.deReplicate = .ok G ∧ ¬ Set.InjOn G.fullLayout.apply (boxSet G.boundVars) := by
  intro F
  refine ⟨valid_of_checkValid (by decide), rfl, rfl, _,
    deReplicate_eq (show F.outputShape = .ok [2] from rfl) (by decide), fun h => ?_⟩
  have := @h [0, 0] (by show InBox _ _; decide) [1, 0] (by show InBox _ _; decide) (by decide)
  simp at this

end Fragment

end TileLayout
