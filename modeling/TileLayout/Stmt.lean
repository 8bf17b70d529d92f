import TileLayout.Box
/-!
# TIR statements

The loop code works on nests of `For` nodes around buffer stores.  A statement is run for its
stores: `Stmt.exec` lists every store it executes, with the buffer, the index values and the
stored value.  Loads read the heap as it was when the nest started; the iterations of a parallel
loop are independent by the meaning of `ForKind::kParallel`, which is what lets `PartitionLoop`
hand them to threads in another order.  The loop kind changes nothing in the model's run.

`Substitute` on a statement replaces uses of variables and leaves the loop binders alone;
`exec_subst` says that running the substituted statement is running the original one in the
environment the substitution describes, provided no loop rebinds a substituted variable or a
variable that the substituted expressions read.  A `SeqStmt` of several statements is the
right-nested `seq`; an `IfThenElse` without an else branch, the only kind the modelled code builds,
runs its branch when the condition is nonzero.
-/

namespace TileLayout

/-- `ForKind`. -/
inductive ForKind
  | serial
  | parallel
  | vectorized
  | unrolled
  | threadBinding
  deriving DecidableEq

/-- The statement nodes of the loop nests `PartitionLoop` rewrites. -/
inductive Stmt where
  | forLoop (loopVar : Nat) (min extent : PrimExpr) (kind : ForKind) (body : Stmt)
  | seq (first rest : Stmt)
  | bufferStore (buffer : Nat) (value : PrimExpr) (indices : List PrimExpr)
  | ifThenElse (condition : PrimExpr) (thenCase : Stmt)

/-- One executed store. -/
structure Event where
  buffer : Nat
  indices : List Int
  value : Int

namespace Stmt

/-- The stores `s` executes from environment `ρ`, in program order; a loop runs its body for
`min, min + 1, …, min + extent - 1`. -/
def exec (heap : Heap) : (Nat → Int) → Stmt → List Event
  | ρ, .forLoop v min extent _ body =>
      (List.range (extent.eval ρ heap).toNat).flatMap fun i =>
        body.exec heap (Function.update ρ v (min.eval ρ heap + i))
  | ρ, .seq a b => a.exec heap ρ ++ b.exec heap ρ
  | ρ, .bufferStore buffer value indices =>
      [⟨buffer, PrimExpr.evalList ρ heap indices, value.eval ρ heap⟩]
  | ρ, .ifThenElse condition thenCase =>
      if condition.eval ρ heap ≠ 0 then thenCase.exec heap ρ else []

/-- `Substitute(stmt, vmap)`. -/
def subst (σ : Nat → Option PrimExpr) : Stmt → Stmt
  | .forLoop v min extent kind body =>
      .forLoop v (min.subst σ) (extent.subst σ) kind (body.subst σ)
  | .seq a b => .seq (a.subst σ) (b.subst σ)
  | .bufferStore buffer value indices =>
      .bufferStore buffer (value.subst σ) (PrimExpr.substList σ indices)
  | .ifThenElse condition thenCase => .ifThenElse (condition.subst σ) (thenCase.subst σ)

/-- The loop variables `s` binds, outermost first. -/
def loopVars : Stmt → List Nat
  | .forLoop v _ _ _ body => v :: body.loopVars
  | .seq a b => a.loopVars ++ b.loopVars
  | .bufferStore .. => []
  | .ifThenElse _ thenCase => thenCase.loopVars

/-- The kinds of the loops of `s`, in the order of `loopVars`. -/
def forKinds : Stmt → List ForKind
  | .forLoop _ _ _ kind body => kind :: body.forKinds
  | .seq a b => a.forKinds ++ b.forKinds
  | .bufferStore .. => []
  | .ifThenElse _ thenCase => thenCase.forKinds

/-- The statement under the first `n` loops at the root, as `body = loop->body` descends. -/
def dropLoops : Nat → Stmt → Stmt
  | n + 1, .forLoop _ _ _ _ body => dropLoops n body
  | _, s => s

/-- One more than the largest variable `s` binds or reads. -/
def varBound : Stmt → Nat
  | .forLoop v min extent _ body =>
      max (v + 1) (max min.varBound (max extent.varBound body.varBound))
  | .seq a b => max a.varBound b.varBound
  | .bufferStore _ value indices => max value.varBound (PrimExpr.varBoundList indices)
  | .ifThenElse condition thenCase => max condition.varBound thenCase.varBound

/-- `LoopPragmaUnroll`: the outermost serial loops become unrolled ones (with the annotation
`pragma_unroll_explicit = false`, which the model does not keep); the mutator returns at a serial
loop without visiting its body. -/
def loopPragmaUnroll : Stmt → Stmt
  | .forLoop v min extent kind body =>
      if kind = .serial then .forLoop v min extent .unrolled body
      else .forLoop v min extent kind body.loopPragmaUnroll
  | .seq a b => .seq a.loopPragmaUnroll b.loopPragmaUnroll
  | s@(.bufferStore ..) => s
  | .ifThenElse condition thenCase => .ifThenElse condition thenCase.loopPragmaUnroll

/-- `For v₁ in [0, e₁) … For vₖ in [0, eₖ) body`, outermost first. -/
def loopNest : List (Nat × Int × ForKind) → Stmt → Stmt
  | [], body => body
  | (v, e, kind) :: heads, body => .forLoop v (.int 0) (.int e) kind (loopNest heads body)

end Stmt

/-- The environment after binding `vs[i]` to `xs[i]` in turn. -/
def bindVars (ρ : Nat → Int) : List Nat → List Int → Nat → Int
  | v :: vs, x :: xs => bindVars (Function.update ρ v x) vs xs
  | _, _ => ρ

theorem bindVars_of_not_mem {w : Nat} : ∀ {ρ : Nat → Int} {vs : List Nat} (xs : List Int),
    w ∉ vs → bindVars ρ vs xs w = ρ w
  | _, [], _, _ => rfl
  | _, _ :: _, [], _ => rfl
  | _, v :: vs, x :: xs, h => by
      rw [bindVars, bindVars_of_not_mem xs fun hm => h (List.mem_cons_of_mem _ hm),
        Function.update_noteq fun hw => h (by simp [hw])]

theorem bindVars_getElem : ∀ {ρ : Nat → Int} {vs : List Nat} {xs : List Int}, vs.Nodup →
    ∀ j (hj : j < vs.length) (hj' : j < xs.length), bindVars ρ vs xs vs[j] = xs[j]
  | _, [], _, _, _, hj, _ => absurd hj (Nat.not_lt_zero _)
  | _, _ :: _, [], _, _, _, hj' => absurd hj' (Nat.not_lt_zero _)
  | ρ, v :: vs, x :: xs, hnd, 0, _, _ => by
      rw [List.getElem_cons_zero, bindVars, bindVars_of_not_mem xs (List.nodup_cons.1 hnd).1]
      simp
  | ρ, v :: vs, x :: xs, hnd, j + 1, hj, hj' =>
      bindVars_getElem (List.nodup_cons.1 hnd).2 j (by simpa using hj) (by simpa using hj')

theorem bindVars_congr {w : Nat} : ∀ {ρ ρ' : Nat → Int} (vs : List Nat) (xs : List Int),
    ρ w = ρ' w → bindVars ρ vs xs w = bindVars ρ' vs xs w
  | _, _, [], _, h => h
  | _, _, _ :: _, [], h => h
  | ρ, ρ', v :: vs, x :: xs, h => bindVars_congr vs xs (by
      by_cases hw : w = v
      · subst hw
        simp
      · simp [Function.update_noteq hw, h])

theorem bindVars_take : ∀ (ρ : Nat → Int) (vs : List Nat) (xs : List Int) (n : Nat),
    vs.length ≤ n → bindVars ρ vs (xs.take n) = bindVars ρ vs xs
  | _, [], _, _, _ => rfl
  | _, _ :: _, [], _, _ => by simp [bindVars]
  | _, _ :: _, _ :: _, 0, h => absurd h (by simp)
  | ρ, v :: vs, x :: xs, n + 1, h => bindVars_take _ vs xs n (by simpa using h)

/-! ## Running substituted and congruent statements -/

/-- No loop of `s` rebinds a variable `σ` replaces or a variable its replacements read. -/
def SubstSafe (σ : Nat → Option PrimExpr) (s : Stmt) : Prop :=
  ∀ v ∈ s.loopVars, σ v = none ∧ ∀ w e, σ w = some e →
    ∀ (ρ : Nat → Int) (heap : Heap) (n : Int), e.eval (Function.update ρ v n) heap = e.eval ρ heap

theorem substEnv_update {σ : Nat → Option PrimExpr} {ρ : Nat → Int} {heap : Heap} {v : Nat}
    (hv : σ v = none)
    (hfree : ∀ w e, σ w = some e → ∀ (ρ : Nat → Int) (heap : Heap) (n : Int),
      e.eval (Function.update ρ v n) heap = e.eval ρ heap) (n : Int) :
    substEnv σ (Function.update ρ v n) heap = Function.update (substEnv σ ρ heap) v n := by
  funext w
  by_cases hw : w = v
  · subst hw
    simp [substEnv, hv]
  · simp only [substEnv, Function.update_noteq hw]
    cases h : σ w with
    | none => simp [Function.update_noteq hw]
    | some e => exact hfree w e h ρ heap n

namespace Stmt

variable (heap : Heap)

theorem exec_subst {σ : Nat → Option PrimExpr} :
    ∀ (s : Stmt) (ρ : Nat → Int), SubstSafe σ s →
      (s.subst σ).exec heap ρ = s.exec heap (substEnv σ ρ heap)
  | .forLoop v min extent kind body, ρ, h => by
      have hv := h v (List.mem_cons_self _ _)
      have hbody : SubstSafe σ body := fun u hu => h u (List.mem_cons_of_mem _ hu)
      simp only [subst, exec, PrimExpr.eval_subst]
      refine List.flatMap_congr fun i _ => ?_
      rw [exec_subst body _ hbody, substEnv_update hv.1 hv.2]
  | .seq a b, ρ, h => by
      simp only [subst, exec,
        exec_subst a ρ fun u hu => h u (List.mem_append_left _ hu),
        exec_subst b ρ fun u hu => h u (List.mem_append_right _ hu)]
  | .bufferStore buffer value indices, ρ, _ => by
      simp only [subst, exec, PrimExpr.eval_subst, PrimExpr.evalList_subst]
  | .ifThenElse condition thenCase, ρ, h => by
      simp only [subst, exec, PrimExpr.eval_subst, exec_subst thenCase ρ h]

theorem exec_congr :
    ∀ (s : Stmt) {ρ ρ' : Nat → Int}, (∀ v, v < s.varBound → ρ v = ρ' v) →
      s.exec heap ρ = s.exec heap ρ'
  | .forLoop v min extent _ body, ρ, ρ', h => by
      have hb : ∀ u, u < max min.varBound (max extent.varBound body.varBound) → ρ u = ρ' u :=
        fun u hu => h u (Nat.lt_of_lt_of_le hu (Nat.le_max_right _ _))
      simp only [exec,
        PrimExpr.eval_congr_of_varBound heap min fun u hu =>
          hb u (Nat.lt_of_lt_of_le hu (Nat.le_max_left _ _)),
        PrimExpr.eval_congr_of_varBound heap extent fun u hu =>
          hb u (Nat.lt_of_lt_of_le hu ((Nat.le_max_left _ _).trans (Nat.le_max_right _ _)))]
      refine List.flatMap_congr fun i _ => exec_congr body fun u hu => ?_
      by_cases huv : u = v
      · subst huv
        simp
      · simp only [Function.update_noteq huv]
        exact hb u (Nat.lt_of_lt_of_le hu ((Nat.le_max_right _ _).trans (Nat.le_max_right _ _)))
  | .seq a b, ρ, ρ', h => by
      simp only [exec,
        exec_congr a fun u hu => h u (Nat.lt_of_lt_of_le hu (Nat.le_max_left _ _)),
        exec_congr b fun u hu => h u (Nat.lt_of_lt_of_le hu (Nat.le_max_right _ _))]
  | .bufferStore _ value indices, ρ, ρ', h => by
      simp only [exec,
        PrimExpr.eval_congr_of_varBound heap value fun u hu =>
          h u (Nat.lt_of_lt_of_le hu (Nat.le_max_left _ _)),
        PrimExpr.evalList_congr_of_varBound heap indices fun u hu =>
          h u (Nat.lt_of_lt_of_le hu (Nat.le_max_right _ _))]
  | .ifThenElse condition thenCase, ρ, ρ', h => by
      simp only [exec,
        PrimExpr.eval_congr_of_varBound heap condition fun u hu =>
          h u (Nat.lt_of_lt_of_le hu (Nat.le_max_left _ _)),
        exec_congr thenCase fun u hu => h u (Nat.lt_of_lt_of_le hu (Nat.le_max_right _ _))]

@[simp] theorem exec_loopPragmaUnroll : ∀ (s : Stmt) (ρ : Nat → Int),
    s.loopPragmaUnroll.exec heap ρ = s.exec heap ρ
  | .forLoop v min extent kind body, ρ => by
      unfold loopPragmaUnroll
      split
      · rfl
      · simp only [exec, exec_loopPragmaUnroll body]
  | .seq a b, ρ => by
      simp only [loopPragmaUnroll, exec, exec_loopPragmaUnroll a, exec_loopPragmaUnroll b]
  | .bufferStore .., _ => rfl
  | .ifThenElse _ thenCase, ρ => by simp only [loopPragmaUnroll, exec, exec_loopPragmaUnroll thenCase]

@[simp] theorem forKinds_subst (σ : Nat → Option PrimExpr) : ∀ s : Stmt,
    (s.subst σ).forKinds = s.forKinds
  | .forLoop _ _ _ _ body => by simp only [subst, forKinds, forKinds_subst σ body]
  | .seq a b => by simp only [subst, forKinds, forKinds_subst σ a, forKinds_subst σ b]
  | .bufferStore .. => rfl
  | .ifThenElse _ thenCase => forKinds_subst σ thenCase

theorem loopPragmaUnroll_subst (σ : Nat → Option PrimExpr) : ∀ s : Stmt,
    (s.subst σ).loopPragmaUnroll = s.loopPragmaUnroll.subst σ
  | .forLoop v min extent kind body => by
      by_cases hk : kind = .serial <;> simp [subst, loopPragmaUnroll, hk, loopPragmaUnroll_subst σ body]
  | .seq a b => by simp only [subst, loopPragmaUnroll, loopPragmaUnroll_subst σ a, loopPragmaUnroll_subst σ b]
  | .bufferStore .. => rfl
  | .ifThenElse _ thenCase => by simp only [subst, loopPragmaUnroll, loopPragmaUnroll_subst σ thenCase]

@[simp] theorem forKinds_loopNest : ∀ (heads : List (Nat × Int × ForKind)) (body : Stmt),
    (loopNest heads body).forKinds = heads.map (·.2.2) ++ body.forKinds
  | [], _ => rfl
  | _ :: heads, body => by simp [loopNest, forKinds, forKinds_loopNest heads body]

@[simp] theorem dropLoops_loopNest : ∀ (heads : List (Nat × Int × ForKind)) (body : Stmt),
    (loopNest heads body).dropLoops heads.length = body
  | [], body => by cases body <;> rfl
  | _ :: heads, body => dropLoops_loopNest heads body

/-- `LoopPragmaUnroll` on a nest whose outermost loop is serial unrolls that loop and returns
without visiting the rest. -/
theorem loopPragmaUnroll_loopNest_serial (v : Nat) (e : Int) (heads : List (Nat × Int × ForKind))
    (body : Stmt) :
    (loopNest ((v, e, .serial) :: heads) body).loopPragmaUnroll =
      loopNest ((v, e, .unrolled) :: heads) body := by
  simp [loopNest, loopPragmaUnroll]

/-- Over a nest of serial loops, `LoopPragmaUnroll` unrolls the outermost one only, and reaches
the body only when the nest is empty. -/
theorem forKinds_loopPragmaUnroll_serial : ∀ (ps : List (Nat × Int)) (body : Stmt),
    (loopNest (ps.map fun (v, e) => (v, e, .serial)) body).loopPragmaUnroll.forKinds =
      match ps with
      | [] => body.loopPragmaUnroll.forKinds
      | _ :: ps => .unrolled :: List.replicate ps.length .serial ++ body.forKinds
  | [], _ => rfl
  | (v, e) :: ps, body => by
      rw [List.map_cons, loopPragmaUnroll_loopNest_serial]
      simp [loopNest, forKinds, Function.comp_def]

/-- A nest of zero-based loops runs its body once per point of the box of its extents, in
lexicographic order, with the loop variables bound to the point. -/
theorem exec_loopNest : ∀ (heads : List (Nat × Int × ForKind)) (body : Stmt) (ρ : Nat → Int),
    (loopNest heads body).exec heap ρ =
      (boxPoints (shapeBox (heads.map (·.2.1)))).flatMap fun x =>
        body.exec heap (bindVars ρ (heads.map (·.1)) x)
  | [], body, ρ => by simp [loopNest, boxPoints, bindVars]
  | (v, e, kind) :: heads, body, ρ => by
      simp only [loopNest, exec, PrimExpr.eval, exec_loopNest heads, List.map_cons, shapeBox,
        boxPoints, Range.values, Range.ofExtent, List.flatMap_map, List.flatMap_assoc, bindVars,
        zero_add]

/-- A nest of zero-based loops over extent expressions that read none of the loop variables, all
at least `B`, runs its body once per point of the box of the extents' values. -/
theorem exec_exprNest {B : Nat} (kind : ForKind) : ∀ (ivs : List (Nat × PrimExpr)) (body : Stmt)
    (ρ : Nat → Int), (∀ p ∈ ivs, p.2.varBound ≤ B ∧ B ≤ p.1) →
    (ivs.foldr (fun (v, e) body => .forLoop v (.int 0) e kind body) body).exec heap ρ =
      (boxPoints (shapeBox (ivs.map (·.2.eval ρ heap)))).flatMap fun o =>
        body.exec heap (bindVars ρ (ivs.map (·.1)) o)
  | [], body, ρ, _ => by simp [boxPoints, bindVars]
  | (v, e) :: ivs, body, ρ, h => by
      have hv := (h (v, e) (List.mem_cons_self _ _)).2
      have hfresh : ∀ n : Int, ivs.map (·.2.eval (Function.update ρ v n) heap) =
          ivs.map (·.2.eval ρ heap) := fun n => List.map_congr_left fun p hp =>
        PrimExpr.eval_congr_of_varBound heap p.2 fun w hw => Function.update_noteq (by
          have := (h p (List.mem_cons_of_mem _ hp)).1
          omega) _ _
      simp only [List.foldr_cons, exec, PrimExpr.eval,
        exec_exprNest kind ivs body _ fun p hp => h p (List.mem_cons_of_mem _ hp), hfresh,
        List.map_cons, shapeBox, boxPoints, Range.values, Range.ofExtent, List.flatMap_map,
        List.flatMap_assoc, bindVars, zero_add]

theorem loopVars_lt_varBound : ∀ (s : Stmt) (v : Nat), v ∈ s.loopVars → v < s.varBound
  | .forLoop u min extent _ body, v, h => by
      rcases List.mem_cons.1 h with rfl | h
      · simp only [varBound]
        omega
      · have := loopVars_lt_varBound body v h
        simp only [varBound]
        omega
  | .seq a b, v, h => by
      rcases List.mem_append.1 h with h | h
      · have := loopVars_lt_varBound a v h
        simp only [varBound]
        omega
      · have := loopVars_lt_varBound b v h
        simp only [varBound]
        omega
  | .bufferStore .., _, h => absurd h (List.not_mem_nil _)
  | .ifThenElse _ thenCase, v, h => by
      have := loopVars_lt_varBound thenCase v h
      simp only [varBound]
      omega

theorem varBound_le_loopNest :
    ∀ (heads : List (Nat × Int × ForKind)) (body : Stmt), body.varBound ≤ (loopNest heads body).varBound
  | [], _ => le_rfl
  | _ :: heads, body => by
      have := varBound_le_loopNest heads body
      simp only [loopNest, varBound]
      omega

end Stmt

end TileLayout
