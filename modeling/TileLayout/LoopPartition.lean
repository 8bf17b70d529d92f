import TileLayout.Inverse
import TileLayout.Stmt
/-!
# Partitioning parallel loops onto threads

`PartitionLoop(op, thread, analyzer, loop_layout)` turns a nest of parallel loops into a serial
nest run by every thread: the inverse of the fragment `loop_layout` expresses each original loop
variable through the new loop variables (one per register index) and the thread variable, the
outer loops are stripped, and their variables are substituted in the body.
`PartitionLoop(op, thread, analyzer, num_thread)` first builds the fragment with
`LoopPartitioner::Partition`, which collects the parallel loops and spreads their flattened
iteration number over `num_thread` threads.

The analyzer's `Simplify` and `BufferIndiceSimplify` rewrite expressions into ones with the same
value on the bound domains, and are the identity here, as in `Layout`.

`partitionLoop_exec` is the semantic result: run on thread `t`, the partitioned statement executes
the original body at exactly the points that the fragment places on `t`.
-/

namespace TileLayout

/-- `as_const_int`: the value of an integer constant. -/
def asConstInt : PrimExpr → Option Int
  | .int n => some n
  | _ => none

namespace Stmt

/-- The loops `LoopPartitioner::VisitStmt_(const ForNode*)` collects in `loop_vars_`: every
parallel loop of the statement, in the order the visitor meets them, with its `min` and
`extent`.  The visitor also keeps the body of the last one in `body_`, which nothing reads. -/
def collectParallel : Stmt → List (Nat × PrimExpr × PrimExpr)
  | .forLoop v min extent kind body =>
      (if kind = .parallel then [(v, min, extent)] else []) ++ body.collectParallel
  | .seq a b => a.collectParallel ++ b.collectParallel
  | .bufferStore .. => []
  | .ifThenElse _ thenCase => thenCase.collectParallel

/-- The chain of directly nested parallel loops at the root of a statement, outermost first. -/
def parallelChain : Stmt → List (Nat × PrimExpr × PrimExpr)
  | .forLoop v min extent kind body =>
      if kind = .parallel then (v, min, extent) :: body.parallelChain else []
  | _ => []

/-- The statement under the chain of parallel loops at the root. -/
def chainBody : Stmt → Stmt
  | s@(.forLoop _ _ _ kind body) => if kind = .parallel then body.chainBody else s
  | s => s

/-- The visitor collects the chain at the root and then every parallel loop below it. -/
theorem collectParallel_eq : ∀ s : Stmt,
    s.collectParallel = s.parallelChain ++ s.chainBody.collectParallel
  | .forLoop v min extent kind body => by
      by_cases hk : kind = .parallel
      · simp [collectParallel, parallelChain, chainBody, hk, collectParallel_eq body]
      · simp [collectParallel, parallelChain, chainBody, hk]
  | .seq _ _ => by simp [collectParallel, parallelChain, chainBody]
  | .bufferStore .. => rfl
  | .ifThenElse _ _ => by simp [collectParallel, parallelChain, chainBody]

end Stmt

/-- The domain `Range::FromMinExtent(node->min, node->extent)` of a collected loop; `Partition`
requires a constant extent (`ICHECK(ext_ptr)`).  The model's ranges hold numbers, so a loop whose
minimum is not a constant is outside the model. -/
def loopDomain (loop : Nat × PrimExpr × PrimExpr) : Except String Range :=
  match asConstInt loop.2.2, asConstInt loop.2.1 with
  | some extent, some min => pure ⟨min, extent⟩
  | none, _ => throw "ext_ptr"
  | some _, none => throw "non-constant loop minimum"

/-- `flattened = flattened * extent + loop_vars_[i]->var` over the collected loops, from `0`. -/
def flattenLoops (extents : List Int) : PrimExpr :=
  extents.enum.foldl (fun acc (i, e) => .add (.mul acc (.int e)) (.var i)) (.int 0)

/-- `LoopPartitioner::Partition(op, num_thread)`: the flattened iteration number of the collected
loops becomes the register index `FloorDiv(flattened, num_thread)` on thread
`FloorMod(flattened, num_thread)`.  The check on a size `num_thread` does not divide is
`ICHECK("Not Implemented case.")`, whose condition is the string literal: a non-null pointer, so
the check passes. -/
def LoopPartitioner.partition (op : Stmt) (numThread : Int) : Except String Fragment := do
  let loopVars ← op.collectParallel.mapM loopDomain
  let loopSizeFull := (loopVars.map Range.extent).foldl (· * ·) 1
  let flattened := flattenLoops (loopVars.map Range.extent)
  if loopSizeFull.tmod numThread ≠ 0 then
    icheck true "Not Implemented case."
  Fragment.make loopVars [.floorDiv flattened (.int numThread)]
    (.floorMod flattened (.int numThread)) none

/-- `LayoutNode::Forward(vars)`: input `i` of every index replaced by `vars[i]`. -/
def Layout.forward (l : Layout) (vars : List PrimExpr) : Except String (List PrimExpr) := do
  if vars.isEmpty then return l.forwardIndex
  icheck (vars.length == l.inputDim) "vars.size() == InputDim()"
  pure (l.forwardIndex.map (·.subst fun k => vars[k]?))

/-- `stmt.as<For>().value()`: the statement itself when it is a `For`. -/
def Stmt.asFor : Stmt → Except String Stmt
  | s@(.forLoop ..) => pure s
  | _ => throw "body.as<For>().value()"

/-- `vmap.Set(v, e)`. -/
def setVar (vmap : Nat → Option PrimExpr) (v : Nat) (e : PrimExpr) : Nat → Option PrimExpr :=
  fun w => if w = v then some e else vmap w

/-- The stripping loop of `PartitionLoop`: for each given index the body must be a `For`
(`body.as<For>().value()`), whose variable is mapped to the index before the body descends. -/
def stripLoops : List PrimExpr → (Nat → Option PrimExpr) → Stmt →
    Except String ((Nat → Option PrimExpr) × Stmt)
  | [], vmap, body => pure (vmap, body)
  | e :: es, vmap, .forLoop v _ _ _ body => stripLoops es (setVar vmap v e) body
  | _ :: _, _, _ => throw "body.as<For>().value()"

/-- The loop variables `Var(std::string{char('i' + i)})` of `PartitionLoop`: new variables,
numbered from the first number that neither the statement nor the thread variable uses. -/
def freshVars (op : Stmt) (thread n : Nat) : List Nat :=
  (List.range n).map (max op.varBound (thread + 1) + ·)

/-- `PartitionLoop(op, thread, analyzer, loop_layout)`: the inverse of the fragment, applied to
the new loop variables and the thread, gives every original loop variable; the first
`InputDim()` loops of `op` are stripped and their variables substituted, and serial loops over
`[0, InputShape()[i])` of the inverse are wrapped around the body, the outermost of which
`LoopPragmaUnroll` unrolls. -/
def partitionLoop (E : IterMapEngine) (op : Stmt) (thread : Nat) (loopLayout : Fragment) :
    Except String Stmt := do
  let vars := freshVars op thread loopLayout.outputDim ++ [thread]
  let invLoop ← loopLayout.inverse E
  let indices ← invLoop.forward (vars.map .var)
  let (vmap, body) ← stripLoops (indices.take loopLayout.inputDim) (fun _ => none) op
  let loops := ((vars.zip invLoop.inputShape).take loopLayout.outputDim).map
    fun (v, e) => (v, e, ForKind.serial)
  (Stmt.loopNest loops (body.subst vmap)).loopPragmaUnroll.asFor

/-- `PartitionLoop(op, thread, analyzer, num_thread)`. -/
def partitionLoopNumThread (E : IterMapEngine) (op : Stmt) (thread : Nat) (numThread : Int) :
    Except String Stmt := do
  let fragment ← LoopPartitioner.partition op numThread
  partitionLoop E op thread fragment

/-- The points `x ++ [rep]` of the input box and replica range that `F` places on thread `t`. -/
def Fragment.threadPoints (F : Fragment) (t : Int) : List (List Int) :=
  (boxPoints F.boundVars).filter fun z => F.forwardThread.valueAt z == t

/-! ## What a partitioned statement runs -/

/-- `vmap` after the stripping loop: the variables mapped to the indices in turn. -/
def setVars (vmap : Nat → Option PrimExpr) : List Nat → List PrimExpr → Nat → Option PrimExpr
  | v :: vs, e :: es => setVars (setVar vmap v e) vs es
  | _, _ => vmap

theorem Stmt.eq_of_asFor_eq_ok {s s' : Stmt} (h : s.asFor = .ok s') : s' = s := by
  cases s <;> first | (cases h; rfl) | cases h

theorem Layout.forward_eq {l : Layout} {vars : List PrimExpr} (hne : vars ≠ [])
    (hlen : vars.length = l.inputDim) :
    l.forward vars = .ok (l.forwardIndex.map (·.subst fun k => vars[k]?)) := by
  simp [forward, List.isEmpty_iff, hne, hlen, icheck, pure, Except.pure, bind, Except.bind]

theorem stripLoops_loopNest : ∀ (heads : List (Nat × Int × ForKind)) (es : List PrimExpr)
    (vmap : Nat → Option PrimExpr) (body : Stmt), es.length = heads.length →
    stripLoops es vmap (Stmt.loopNest heads body) = .ok (setVars vmap (heads.map (·.1)) es, body)
  | [], [], _, _, _ => rfl
  | _ :: heads, _ :: es, _, body, h => stripLoops_loopNest heads es _ body (by simpa using h)
  | [], _ :: _, _, _, h => absurd h (by simp)
  | _ :: _, [], _, _, h => absurd h (by simp)

/-- The stripping loop leaves the statement under the first `es.length` loops. -/
theorem stripLoops_eq_ok : ∀ (es : List PrimExpr) (vmap : Nat → Option PrimExpr) (op : Stmt)
    {vmap' : Nat → Option PrimExpr} {body : Stmt},
    stripLoops es vmap op = .ok (vmap', body) → body = op.dropLoops es.length
  | [], _, op, _, _, h => by cases h; cases op <;> rfl
  | _ :: es, _, .forLoop _ _ _ _ b, _, _, h => stripLoops_eq_ok es _ b h
  | _ :: _, _, .seq .., _, _, h => by cases h
  | _ :: _, _, .bufferStore .., _, _, h => by cases h
  | _ :: _, _, .ifThenElse .., _, _, h => by cases h

theorem substEnv_setVar (heap : Heap) (σ : Nat → Option PrimExpr) (ρ : Nat → Int) (v : Nat)
    (e : PrimExpr) :
    substEnv (setVar σ v e) ρ heap = Function.update (substEnv σ ρ heap) v (e.eval ρ heap) := by
  funext w
  by_cases hw : w = v
  · subst hw
    simp [substEnv, setVar]
  · simp [substEnv, setVar, hw, Function.update_noteq hw]

theorem substEnv_setVars (heap : Heap) : ∀ (σ : Nat → Option PrimExpr) (ρ : Nat → Int)
    (vs : List Nat) (es : List PrimExpr),
    substEnv (setVars σ vs es) ρ heap = bindVars (substEnv σ ρ heap) vs (es.map (·.eval ρ heap))
  | σ, ρ, v :: vs, e :: es => by
      rw [setVars, substEnv_setVars heap _ ρ vs es, List.map_cons, bindVars, substEnv_setVar]
  | _, _, [], _ => rfl
  | _, _, _ :: _, [] => rfl

theorem setVars_of_not_mem {w : Nat} : ∀ (σ : Nat → Option PrimExpr) (vs : List Nat)
    (es : List PrimExpr), w ∉ vs → setVars σ vs es w = σ w
  | σ, v :: vs, e :: es, h => by
      rw [setVars, setVars_of_not_mem _ vs es fun hm => h (List.mem_cons_of_mem _ hm), setVar,
        if_neg fun hw => h (by simp [hw])]
  | _, [], _, _ => rfl
  | _, _ :: _, [], _ => rfl

theorem mem_of_setVars_eq_some {w : Nat} {e : PrimExpr} : ∀ (σ : Nat → Option PrimExpr)
    (vs : List Nat) (es : List PrimExpr), setVars σ vs es w = some e → σ w = some e ∨ e ∈ es
  | σ, v :: vs, e' :: es, h => by
      rcases mem_of_setVars_eq_some _ vs es h with h | h
      · unfold setVar at h
        split at h
        · cases h
          exact .inr (List.mem_cons_self _ _)
        · exact .inl h
      · exact .inr (List.mem_cons_of_mem _ h)
  | _, [], _, h => .inl h
  | _, _ :: _, [], h => .inl h

theorem mem_freshVars {op : Stmt} {thread n w : Nat} (h : w ∈ freshVars op thread n) :
    op.varBound ≤ w ∧ thread < w := by
  obtain ⟨i, -, rfl⟩ := List.mem_map.1 h
  omega

theorem nodup_freshVars (op : Stmt) (thread n : Nat) : (freshVars op thread n).Nodup :=
  (List.nodup_range n).map fun _ _ h => Nat.add_left_cancel h

@[simp] theorem length_freshVars (op : Stmt) (thread n : Nat) :
    (freshVars op thread n).length = n := by
  simp [freshVars]

/-- The fresh variables bound to `y` over the thread bound to `t` give `fresh ++ [thread]` the
values `y ++ [t]`. -/
theorem bindVars_freshVars_thread {op : Stmt} {thread n : Nat} (ρ : Nat → Int) (t : Int)
    {y : List Int} (hyl : y.length = n) :
    ∀ j (h₁ : j < (freshVars op thread n ++ [thread]).length) (h₂ : j < (y ++ [t]).length),
      bindVars (Function.update ρ thread t) (freshVars op thread n) y
        (freshVars op thread n ++ [thread])[j] = (y ++ [t])[j] := by
  intro j h₁ h₂
  have hfl : (freshVars op thread n).length = y.length := by simp [hyl]
  by_cases hj : j < (freshVars op thread n).length
  · simp only [List.getElem_append_left hj, List.getElem_append_left (hfl ▸ hj)]
    exact bindVars_getElem (nodup_freshVars _ _ _) j hj (hfl ▸ hj)
  · obtain rfl : j = (freshVars op thread n).length := by simp at h₁ hj ⊢; omega
    rw [List.getElem_concat_length _ _ _ rfl, List.getElem_concat_length _ _ _ hfl,
      bindVars_of_not_mem y fun hm => by have := (mem_freshVars hm).2; omega]
    simp

/-! ### Substituting variables for the inverse's inputs -/

theorem substEnv_vars {vars : List Nat} {ρ : Nat → Int} (heap : Heap) {j : Nat}
    (hj : j < vars.length) :
    substEnv (fun k => (vars.map PrimExpr.var)[k]?) ρ heap j = ρ vars[j] := by
  simp [substEnv, hj, PrimExpr.eval]

/-- An index of the inverse, its inputs replaced by the variables `vars`, evaluates to its value
at the point those variables hold. -/
theorem eval_subst_vars {e : PrimExpr} {vars : List Nat} {p : List Int} {ρ : Nat → Int}
    (heap : Heap) (hb : e.varBound ≤ vars.length)
    (hp : ∀ j (h₁ : j < vars.length) (h₂ : j < p.length), ρ vars[j] = p[j])
    (hlen : p.length = vars.length) :
    (e.subst fun k => (vars.map PrimExpr.var)[k]?).eval ρ heap =
      e.eval (fun j => p.getD j 0) heap := by
  rw [PrimExpr.eval_subst]
  refine PrimExpr.eval_congr_of_varBound heap e fun j hj => ?_
  have hj' : j < vars.length := by omega
  rw [substEnv_vars heap hj', hp j hj' (hlen ▸ hj'), List.getD_eq_getElem _ _ (hlen ▸ hj')]

/-- Such an index reads no variable outside `vars`. -/
theorem eval_subst_vars_update {e : PrimExpr} {vars : List Nat} {v : Nat} (hv : v ∉ vars)
    (hb : e.varBound ≤ vars.length) (ρ : Nat → Int) (heap : Heap) (n : Int) :
    (e.subst fun k => (vars.map PrimExpr.var)[k]?).eval (Function.update ρ v n) heap =
      (e.subst fun k => (vars.map PrimExpr.var)[k]?).eval ρ heap := by
  rw [PrimExpr.eval_subst, PrimExpr.eval_subst]
  refine PrimExpr.eval_congr_of_varBound heap e fun j hj => ?_
  have hj' : j < vars.length := by omega
  rw [substEnv_vars heap hj', substEnv_vars heap hj',
    Function.update_noteq fun h => hv (by rw [← h]; exact List.getElem_mem hj')]

/-! ### The partitioned statement -/

section Partition

open Fragment

variable {E : IterMapEngine} {F : Fragment} {op body s : Stmt} {thread : Nat}
  {heads : List (Nat × Int × ForKind)} {L : List Int} {T : Int} {M : Layout}

theorem length_forwardIndex_of_inverse (hM : F.inverse E = .ok M) :
    M.forwardIndex.length = F.inputDim + 1 := by
  obtain ⟨inv, S, -, -, hMeq⟩ := Layout.inverse_eq_ok.1 hM
  simp [hMeq, backwardIndex, Layout.inputDim, fullLayout, boundVars, inputDim]

/-- With the inverse `M` and `OutputShape() = L`, `PartitionLoop` strips the loops of `op` and
wraps serial loops over `L` around the substituted body. -/
theorem partitionLoop_eq_bind (hM : F.inverse E = .ok M) (hL : F.outputShape = .ok L) :
    partitionLoop E op thread F =
      stripLoops ((M.forwardIndex.map (·.subst fun k =>
          ((freshVars op thread F.outputDim ++ [thread]).map PrimExpr.var)[k]?)).take F.inputDim)
        (fun _ => none) op >>= fun (vmap, body) =>
      (Stmt.loopNest (((freshVars op thread F.outputDim).zip L).map fun (v, e) => (v, e, .serial))
        (body.subst vmap)).loopPragmaUnroll.asFor := by
  obtain ⟨inv, S, -, hS, hMeq⟩ := Layout.inverse_eq_ok.1 hM
  obtain ⟨L', T, hL', -, rfl⟩ := fullLayout_outputShape_eq_ok.1 hS
  cases hL.symm.trans hL'
  have hd : L.length = F.outputDim := length_outputShape hL
  have hfwd := @Layout.forward_eq M ((freshVars op thread F.outputDim ++ [thread]).map PrimExpr.var)
    (by simp) (by simp [hMeq, Layout.inputDim, shapeBox, hd])
  have hzip : (((freshVars op thread F.outputDim ++ [thread]).zip M.inputShape).take F.outputDim) =
      (freshVars op thread F.outputDim).zip L := by
    rw [show M.inputShape = L ++ [T] by simp [hMeq, Layout.inputShape], List.zip_append (by simp [hd])]
    simp [hd]
  simp only [partitionLoop, hM, Except.ok_bind, hfwd, hzip]

/-- The statement `PartitionLoop` returns, for a nest of loops around `body`. -/
theorem partitionLoop_eq_ok (hop : op = Stmt.loopNest heads body)
    (hlen : heads.length = F.inputDim) (hL : F.outputShape = .ok L)
    (hM : F.inverse E = .ok M) (hs : partitionLoop E op thread F = .ok s) :
    s = (Stmt.loopNest (((freshVars op thread F.outputDim).zip L).map fun (v, e) => (v, e, .serial))
      (body.subst (setVars (fun _ => none) (heads.map (·.1))
        ((M.forwardIndex.map (·.subst fun k =>
          ((freshVars op thread F.outputDim ++ [thread]).map PrimExpr.var)[k]?)).take F.inputDim)))).loopPragmaUnroll := by
  have hstrip := stripLoops_loopNest heads
    ((M.forwardIndex.map (·.subst fun k =>
          ((freshVars op thread F.outputDim ++ [thread]).map PrimExpr.var)[k]?)).take F.inputDim)
    (fun _ => none) body (by simp [length_forwardIndex_of_inverse hM, hlen])
  rw [← hop] at hstrip
  rw [partitionLoop_eq_bind hM hL, hstrip, Except.ok_bind] at hs
  exact Stmt.eq_of_asFor_eq_ok hs

/-- Run on thread `t`, the partitioned statement runs the body once per register index `y`, at
the point the inverse gives for `(y, t)`. -/
theorem exec_partitionLoop (heap : Heap) (ρ : Nat → Int) (hop : op = Stmt.loopNest heads body)
    (hlen : heads.length = F.inputDim) (hL : F.outputShape = .ok L)
    (hbind : ∀ v ∈ body.loopVars, v ≠ thread ∧ v ∉ heads.map (·.1))
    (hM : F.inverse E = .ok M) (hs : partitionLoop E op thread F = .ok s) (t : Int) :
    s.exec heap (Function.update ρ thread t) =
      (boxPoints (shapeBox L)).flatMap fun y => body.exec heap
        (bindVars (Function.update ρ thread t) (heads.map (·.1)) (M.apply (y ++ [t]))) := by
  rw [partitionLoop_eq_ok hop hlen hL hM hs, Stmt.exec_loopPragmaUnroll, Stmt.exec_loopNest]
  obtain ⟨inv, S, hdet, hS, hMeq⟩ := Layout.inverse_eq_ok.1 hM
  obtain ⟨L', T', hL', hT', rfl⟩ := fullLayout_outputShape_eq_ok.1 hS
  cases hL.symm.trans hL'
  have hd : L.length = F.outputDim := length_outputShape hL
  set fresh := freshVars op thread F.outputDim with hfresh
  have hfl : fresh.length = L.length := by simp [hfresh, hd]
  have hbody : body.varBound ≤ op.varBound := hop ▸ Stmt.varBound_le_loopNest heads body
  have hreads : ∀ e ∈ M.forwardIndex, e.varBound ≤ (fresh ++ [thread]).length ∧
      ∀ (ρ : Nat → Int) (heap heap' : Heap), e.eval ρ heap = e.eval ρ heap' := by
    intro e he
    rw [hMeq] at he
    obtain ⟨hb, hh⟩ := backwardIndex_reads (E.detect_sound hdet) e he
    exact ⟨by simpa [fullLayout, hfl, hd, outputDim] using hb, hh⟩
  have hsafe : ∀ v ∈ body.loopVars, v ∉ fresh ++ [thread] := fun v hv hm => by
    have := Stmt.loopVars_lt_varBound body v hv
    rcases List.mem_append.1 hm with hm | hm
    · have := (mem_freshVars hm).1
      omega
    · exact (hbind v hv).1 (List.mem_singleton.1 hm)
  have hmap : ((fresh.zip L).map fun (v, e) => (v, e, ForKind.serial)).map (·.2.1) = L ∧
      ((fresh.zip L).map fun (v, e) => (v, e, ForKind.serial)).map (·.1) = fresh := by
    simp only [List.map_map]
    exact ⟨List.map_snd_zip _ _ hfl.symm.le, List.map_fst_zip _ _ hfl.le⟩
  rw [hmap.1, hmap.2]
  refine List.flatMap_congr fun y hy => ?_
  have hyl : y.length = fresh.length := by
    rw [hfl, (mem_boxPoints.1 hy).length_eq]
    simp [shapeBox]
  have hp := @bindVars_freshVars_thread op thread _ ρ t y (hyl.trans (length_freshVars _ _ _))
  rw [Stmt.exec_subst heap body _ fun v hv => ⟨?_, fun w e he ρ' heap' n => ?_⟩, substEnv_setVars]
  · have hvals : ((M.forwardIndex.map (·.subst fun k =>
        ((fresh ++ [thread]).map PrimExpr.var)[k]?)).take F.inputDim).map
          (·.eval (bindVars (Function.update ρ thread t) fresh y) heap) =
        (M.apply (y ++ [t])).take F.inputDim := by
      rw [List.map_take, List.map_map, Layout.apply]
      congr 1
      refine List.map_congr_left fun e he => ?_
      rw [Function.comp_apply, eval_subst_vars heap (hreads e he).1 hp (by simp [hyl]),
        (hreads e he).2 _ heap Heap.zero]
      rfl
    rw [hvals, bindVars_take _ _ _ _ (by simp [hlen])]
    refine Stmt.exec_congr heap body fun w hw => bindVars_congr _ _ ?_
    exact bindVars_of_not_mem y fun hm => by have := (mem_freshVars hm).1; omega
  · rw [setVars_of_not_mem _ _ _ (hbind v hv).2]
  · rcases mem_of_setVars_eq_some _ _ _ he with h | h
    · cases h
    · obtain ⟨e', he', rfl⟩ := List.mem_map.1 (List.mem_of_mem_take h)
      exact eval_subst_vars_update (hsafe v hv) (hreads e' he').1 ρ' heap' n

/-- The full layout of a fragment at a point: the data indices, then the thread. -/
theorem apply_fullLayout (z : List Int) :
    F.fullLayout.apply z = F.forwardIndex.map (·.valueAt z) ++ [F.forwardThread.valueAt z] := by
  simp [fullLayout, Layout.apply]

/-- The register indices of thread `t`, sent through the inverse, are the points `F` places on
`t`, each once. -/
theorem perm_threadPoints (hF : F.fullLayout.Valid) (hL : F.outputShape = .ok L)
    (hT : F.threadExtent = .ok T) (hM : F.inverse E = .ok M) {t : Int} (ht : 0 ≤ t ∧ t < T) :
    ((boxPoints (shapeBox L)).map fun y => M.apply (y ++ [t])).Perm (F.threadPoints t) := by
  have hinv := Layout.inverseOf_of_valid hF hM
  have hS : F.fullLayout.outputShape = .ok (L ++ [T]) :=
    fullLayout_outputShape_eq_ok.2 ⟨L, T, hL, hT, rfl⟩
  obtain ⟨_, S, -, hS', hMeq⟩ := Layout.inverse_eq_ok.1 hM
  cases hS.symm.trans hS'
  have hd : F.forwardIndex.length = L.length := (length_outputShape hL).symm
  have hw : ∀ y, InBox (shapeBox L) y → y ++ [t] ∈ boxSet M.forwardVar := fun y hy => by
    rw [hMeq]
    exact (inBox_shapeBox_append_singleton (by simpa [shapeBox] using hy.length_eq)).2 ⟨hy, ht⟩
  have hlast : ∀ y, InBox (shapeBox L) y → F.forwardThread.valueAt (M.apply (y ++ [t])) = t :=
    fun y hy => by
      have h := hinv.invOn.2 (hw y hy)
      rw [apply_fullLayout] at h
      exact List.singleton_inj.1 (List.append_inj h (by simpa [hd, shapeBox] using
        hy.length_eq.symm)).2
  refine (List.perm_ext_iff_of_nodup ((nodup_boxPoints _).map_on fun y₁ hy₁ y₂ hy₂ h => ?_)
    ((nodup_boxPoints _).filter _)).2 fun z => ?_
  · have h' := congrArg F.fullLayout.apply h
    rw [hinv.invOn.2 (hw y₁ (mem_boxPoints.1 hy₁)), hinv.invOn.2 (hw y₂ (mem_boxPoints.1 hy₂))]
      at h'
    exact List.append_cancel_right h'
  simp only [List.mem_map, Fragment.threadPoints, List.mem_filter, mem_boxPoints, beq_iff_eq]
  constructor
  · rintro ⟨y, hy, rfl⟩
    exact ⟨hinv.mapsTo (hw y hy), hlast y hy⟩
  · rintro ⟨hz, rfl⟩
    have hy := Layout.mapsTo_of_outputShape hS hz
    rw [apply_fullLayout] at hy
    refine ⟨_, ((inBox_shapeBox_append_singleton (by simp [hd])).1 hy).1, ?_⟩
    rw [← apply_fullLayout]
    exact hinv.invOn.1 hz

/-- Over the threads `[0, ThreadExtent())`, the points of the threads are every point of the
input box and replica range once. -/
theorem perm_flatMap_threadPoints (hT : F.threadExtent = .ok T) :
    ((List.range T.toNat).flatMap fun i => F.threadPoints i).Perm (boxPoints F.boundVars) := by
  have hbounds := (outputExtent_eq_ok_iff.1 hT).2.2
  refine (List.perm_ext_iff_of_nodup (List.nodup_flatMap.2 ⟨fun i _ => (nodup_boxPoints _).filter _,
    (List.nodup_range _).pairwise_of_forall_ne fun i _ j _ hij => ?_⟩) (nodup_boxPoints _)).2
      fun z => ?_
  · simp only [Function.onFun, List.disjoint_left, Fragment.threadPoints, List.mem_filter,
      beq_iff_eq]
    rintro z ⟨-, hz⟩ ⟨-, hz'⟩
    exact hij (by omega)
  · simp only [List.mem_flatMap, List.mem_range, Fragment.threadPoints, List.mem_filter,
      mem_boxPoints, beq_iff_eq]
    constructor
    · rintro ⟨_, -, hz, -⟩
      exact hz
    · intro hz
      have := hbounds z hz
      exact ⟨(F.forwardThread.valueAt z).toNat, by omega, hz, by omega⟩

theorem exists_inverse_of_partitionLoop (hs : partitionLoop E op thread F = .ok s) :
    ∃ M, F.inverse E = .ok M := by
  cases h : F.inverse E with
  | ok M => exact ⟨M, rfl⟩
  | error e =>
      simp only [partitionLoop, h] at hs
      cases hs

theorem exists_outputShape_of_valid (hF : F.fullLayout.Valid) : ∃ L, F.outputShape = .ok L := by
  obtain ⟨-, S, hS, -⟩ := hF
  obtain ⟨L, -, hL, -⟩ := fullLayout_outputShape_eq_ok.1 hS
  exact ⟨L, hL⟩

/-- `PartitionLoop` with a fragment whose full layout is valid preserves the meaning of the loop
nest it partitions: the nest runs its body once per point of the fragment's input box, and the
returned statement, run on thread `t ∈ [0, ThreadExtent())`, runs the body once at each point
`x` for each replica `rep` that the fragment places on `t`, and at no other point.  Over all
threads every pair of a point and a replica is taken once, so every point runs
`ReplicateExtent()` times. -/
theorem partitionLoop_exec (heap : Heap) (ρ : Nat → Int) (hop : op = Stmt.loopNest heads body)
    (hshape : heads.map (·.2.1) = F.inputShape) (hF : F.fullLayout.Valid)
    (hbind : ∀ v ∈ body.loopVars, v ≠ thread ∧ v ∉ heads.map (·.1))
    (hs : partitionLoop E op thread F = .ok s) (hT : F.threadExtent = .ok T) :
    op.exec heap ρ =
        (boxPoints F.forwardVar).flatMap (fun x => body.exec heap (bindVars ρ (heads.map (·.1)) x)) ∧
      (∀ t, 0 ≤ t → t < T → (s.exec heap (Function.update ρ thread t)).Perm
        ((F.threadPoints t).flatMap fun z =>
          body.exec heap (bindVars (Function.update ρ thread t) (heads.map (·.1)) z))) ∧
      ((List.range T.toNat).flatMap fun t => F.threadPoints t).Perm (boxPoints F.boundVars) := by
  obtain ⟨M, hM⟩ := exists_inverse_of_partitionLoop hs
  obtain ⟨L, hL⟩ := exists_outputShape_of_valid hF
  have hlen : heads.length = F.inputDim := by simpa using congrArg List.length hshape
  refine ⟨?_, fun t h0 ht => ?_, perm_flatMap_threadPoints hT⟩
  · rw [hop, Stmt.exec_loopNest, hshape, inputShape,
      shapeBox_map_extent fun r hr => hF.1 r (List.mem_append_left _ hr)]
  · have := (perm_threadPoints hF hL hT hM ⟨h0, ht⟩).flatMap_right
      fun z => body.exec heap (bindVars (Function.update ρ thread t) (heads.map (·.1)) z)
    rwa [List.flatMap_map, ← exec_partitionLoop heap ρ hop hlen hL hbind hM hs t] at this

/-- Four iterations with two replicas: iteration `x` in register `x / 2` on threads `x % 2` and
`x % 2 + 2`. -/
theorem partitionLoop_exec_replicated :
    let op : Stmt := .forLoop 0 (.int 0) (.int 4) .parallel (.bufferStore 0 (.var 0) [.var 0])
    let F : Fragment := ⟨[Range.ofExtent 4], [.floorDiv (.var 0) (.int 2)],
      .add (.floorMod (.var 0) (.int 2)) (.mul (.int 2) (.var 1)), Range.ofExtent 2⟩
    ∃ s, partitionLoop tableEngine op 1 F = .ok s ∧ F.threadExtent = .ok 4 ∧
      ∀ t, 0 ≤ t → t < 4 → (s.exec Heap.zero (Function.update (fun _ => 0) 1 t)).Perm
        ((F.threadPoints t).flatMap fun z => Stmt.exec Heap.zero
          (bindVars (Function.update (fun _ => 0) 1 t) [0] z) (.bufferStore 0 (.var 0) [.var 0])) := by
  intro op F
  obtain ⟨s, hs⟩ : ∃ s, partitionLoop tableEngine op 1 F = .ok s := ⟨_, rfl⟩
  exact ⟨s, hs, rfl, (partitionLoop_exec Heap.zero (fun _ => 0)
    (show op = Stmt.loopNest [(0, 4, .parallel)] (.bufferStore 0 (.var 0) [.var 0]) from rfl)
    (show [(0, (4 : Int), ForKind.parallel)].map (·.2.1) = F.inputShape from rfl)
    (valid_of_checkValid (by decide)).1 (by simp [Stmt.loopVars]) hs rfl).2.1⟩

/-! ### The kinds of the returned loops -/

/-- The statement `PartitionLoop` returns for any statement it accepts: serial loops over
`OutputShape()` around the statement under the first `InputDim()` loops, substituted, and then
`LoopPragmaUnroll`. -/
theorem partitionLoop_eq_loopNest (hs : partitionLoop E op thread F = .ok s) :
    ∃ (L : List Int) (vmap : Nat → Option PrimExpr), L.length = F.outputDim ∧
      s = (Stmt.loopNest (((freshVars op thread F.outputDim).zip L).map fun (v, e) => (v, e, .serial))
        ((op.dropLoops F.inputDim).subst vmap)).loopPragmaUnroll := by
  obtain ⟨M, hM⟩ := exists_inverse_of_partitionLoop hs
  obtain ⟨inv, S, -, hS, -⟩ := Layout.inverse_eq_ok.1 hM
  obtain ⟨L, T, hL, -, -⟩ := fullLayout_outputShape_eq_ok.1 hS
  rw [partitionLoop_eq_bind hM hL] at hs
  obtain ⟨⟨vmap, body⟩, hstrip, hs⟩ := Except.bind_eq_ok.1 hs
  have hbody := stripLoops_eq_ok _ _ _ hstrip
  simp only [List.length_take, List.length_map, length_forwardIndex_of_inverse hM,
    Nat.min_eq_left (Nat.le_succ _)] at hbody
  subst hbody
  exact ⟨L, vmap, length_outputShape hL, Stmt.eq_of_asFor_eq_ok hs⟩

/-- The loops of the returned statement: with `OutputDim() = k + 1`, the outermost introduced loop
is unrolled, the `k` inner ones stay serial, and the loops of the original body keep their kinds;
with `OutputDim() = 0`, which no fragment the code builds has, no loop is introduced and
`LoopPragmaUnroll` rewrites the body itself. -/
theorem partitionLoop_forKinds (hs : partitionLoop E op thread F = .ok s) :
    s.forKinds = match F.outputDim with
      | 0 => (op.dropLoops F.inputDim).loopPragmaUnroll.forKinds
      | k + 1 => .unrolled :: List.replicate k .serial ++ (op.dropLoops F.inputDim).forKinds := by
  obtain ⟨L, vmap, hL, rfl⟩ := partitionLoop_eq_loopNest hs
  rw [Stmt.forKinds_loopPragmaUnroll_serial]
  have hlen : ((freshVars op thread F.outputDim).zip L).length = F.outputDim := by simp [hL]
  revert hlen
  generalize F.outputDim = k
  rcases (freshVars op thread k).zip L with _ | ⟨p, ps⟩ <;> intro hlen <;> subst hlen
  · simp [Stmt.loopPragmaUnroll_subst]
  · simp

/-- A fragment with two outputs: the inner introduced loop stays serial.  A fragment with one
output over the outer loop only: the serial loop of the body stays serial. -/
theorem partitionLoop_forKinds_ranks :
    (∃ s, partitionLoop tableEngine
      (.forLoop 0 (.int 0) (.int 2) .parallel (.forLoop 1 (.int 0) (.int 2) .parallel
        (.bufferStore 0 (.var 0) [.var 0, .var 1])))
      2 ⟨[Range.ofExtent 2, Range.ofExtent 2], [.var 0, .var 1], .int 0, Range.ofExtent 1⟩ = .ok s ∧
        s.forKinds = [.unrolled, .serial]) ∧
    (∃ s, partitionLoop tableEngine
      (.forLoop 0 (.int 0) (.int 2) .parallel (.forLoop 1 (.int 0) (.int 2) .serial
        (.bufferStore 0 (.var 0) [.var 0, .var 1])))
      2 ⟨[Range.ofExtent 2], [.var 0], .int 0, Range.ofExtent 1⟩ = .ok s ∧
        s.forKinds = [.unrolled, .serial]) :=
  ⟨Exists.imp (fun _ hs => ⟨hs, partitionLoop_forKinds hs⟩) ⟨_, rfl⟩,
    Exists.imp (fun _ hs => ⟨hs, partitionLoop_forKinds hs⟩) ⟨_, rfl⟩⟩

end Partition

/-! ## The default partition -/

/-- `Partition` accepts a thread count that does not divide the loop: two iterations over four
threads.  The fragment it builds is valid, with two threads, yet every one of the four threads
runs the returned nest once per register index, so four stores run for a loop of two. -/
theorem partitionLoopNumThread_overruns (E : IterMapEngine) (heap : Heap) (ρ : Nat → Int)
    (s : Stmt)
    (hs : partitionLoopNumThread E
      (.forLoop 0 (.int 0) (.int 2) .parallel (.bufferStore 0 (.var 0) [.var 0])) 1 4 = .ok s) :
    (∃ F, LoopPartitioner.partition
        (.forLoop 0 (.int 0) (.int 2) .parallel (.bufferStore 0 (.var 0) [.var 0])) 4 = .ok F ∧
      F.Valid ∧ F.threadExtent = .ok 2) ∧
    ((List.range 4).flatMap fun t : Nat => s.exec heap (Function.update ρ 1 t)).length = 4 ∧
    (Stmt.exec heap ρ (.forLoop 0 (.int 0) (.int 2) .parallel
      (.bufferStore 0 (.var 0) [.var 0]))).length = 2 := by
  let F₀ : Fragment := ⟨[⟨0, 2⟩], [.floorDiv (flattenLoops [2]) (.int 4)],
    .floorMod (flattenLoops [2]) (.int 4), Range.ofExtent 1⟩
  have hpart : LoopPartitioner.partition
      (.forLoop 0 (.int 0) (.int 2) .parallel (.bufferStore 0 (.var 0) [.var 0])) 4 = .ok F₀ := rfl
  have hs' : partitionLoop E
      (.forLoop 0 (.int 0) (.int 2) .parallel (.bufferStore 0 (.var 0) [.var 0])) 1 F₀ = .ok s := by
    simpa only [partitionLoopNumThread, hpart, Except.ok_bind] using hs
  obtain ⟨M, hM⟩ := exists_inverse_of_partitionLoop hs'
  have hrun := exec_partitionLoop heap ρ
    (show _ = Stmt.loopNest [(0, 2, .parallel)] (.bufferStore 0 (.var 0) [.var 0]) from rfl)
    (show _ = F₀.inputDim from rfl) (show F₀.outputShape = .ok [1] from rfl)
    (by simp [Stmt.loopVars]) hM hs'
  refine ⟨⟨F₀, hpart, Fragment.valid_of_checkValid (by decide), rfl⟩, ?_, ?_⟩
  · simp [hrun, boxPoints, shapeBox, Range.values, Range.ofExtent, Stmt.exec, List.range_succ]
  · simp [Stmt.exec, PrimExpr.eval, List.range_succ]

/-- The enumeration engine accepts that partition. -/
theorem partitionLoopNumThread_overruns_table :
    ∃ s, partitionLoopNumThread tableEngine
        (.forLoop 0 (.int 0) (.int 2) .parallel (.bufferStore 0 (.var 0) [.var 0])) 1 4 = .ok s ∧
      ((List.range 4).flatMap fun t : Nat =>
        s.exec Heap.zero (Function.update (fun _ => 0) 1 t)).length = 4 := by
  obtain ⟨s, hs⟩ : ∃ s, partitionLoopNumThread tableEngine
      (.forLoop 0 (.int 0) (.int 2) .parallel (.bufferStore 0 (.var 0) [.var 0])) 1 4 = .ok s :=
    ⟨_, rfl⟩
  exact ⟨s, hs, (partitionLoopNumThread_overruns tableEngine _ _ s hs).2.1⟩

/-- The visitor collects a parallel loop below a serial one: for `parallel i { serial s { parallel j
{ store } } }` the fragment is built over `i` and `j`, and `PartitionLoop` strips `i` and `s` (the
second `For` it meets) while `j` stays, so on two threads eight stores run for a nest of twelve. -/
theorem partition_collects_nested (E : IterMapEngine) (heap : Heap) (ρ : Nat → Int) (s : Stmt)
    (hs : partitionLoopNumThread E (.forLoop 0 (.int 0) (.int 2) .parallel
      (.forLoop 1 (.int 0) (.int 3) .serial (.forLoop 2 (.int 0) (.int 2) .parallel
        (.bufferStore 0 (.var 0) [.var 0, .var 1, .var 2])))) 3 2 = .ok s) :
    Stmt.parallelChain (.forLoop 0 (.int 0) (.int 2) .parallel
      (.forLoop 1 (.int 0) (.int 3) .serial (.forLoop 2 (.int 0) (.int 2) .parallel
        (.bufferStore 0 (.var 0) [.var 0, .var 1, .var 2])))) = [(0, .int 0, .int 2)] ∧
    Stmt.collectParallel (.forLoop 0 (.int 0) (.int 2) .parallel
      (.forLoop 1 (.int 0) (.int 3) .serial (.forLoop 2 (.int 0) (.int 2) .parallel
        (.bufferStore 0 (.var 0) [.var 0, .var 1, .var 2])))) =
      [(0, .int 0, .int 2), (2, .int 0, .int 2)] ∧
    1 ∉ s.loopVars ∧ 2 ∈ s.loopVars ∧
    ((List.range 2).flatMap fun t : Nat => s.exec heap (Function.update ρ 3 t)).length = 8 ∧
    (Stmt.exec heap ρ (.forLoop 0 (.int 0) (.int 2) .parallel
      (.forLoop 1 (.int 0) (.int 3) .serial (.forLoop 2 (.int 0) (.int 2) .parallel
        (.bufferStore 0 (.var 0) [.var 0, .var 1, .var 2]))))).length = 12 := by
  let F₆ : Fragment := ⟨[⟨0, 2⟩, ⟨0, 2⟩], [.floorDiv (flattenLoops [2, 2]) (.int 2)],
    .floorMod (flattenLoops [2, 2]) (.int 2), Range.ofExtent 1⟩
  let body : Stmt := .forLoop 2 (.int 0) (.int 2) .parallel
    (.bufferStore 0 (.var 0) [.var 0, .var 1, .var 2])
  have hpart : LoopPartitioner.partition (.forLoop 0 (.int 0) (.int 2) .parallel
      (.forLoop 1 (.int 0) (.int 3) .serial body)) 2 = .ok F₆ := rfl
  have hs' : partitionLoop E (.forLoop 0 (.int 0) (.int 2) .parallel
      (.forLoop 1 (.int 0) (.int 3) .serial body)) 3 F₆ = .ok s := by
    simpa only [partitionLoopNumThread, hpart, Except.ok_bind] using hs
  obtain ⟨M, hM⟩ := exists_inverse_of_partitionLoop hs'
  have hop : Stmt.forLoop 0 (.int 0) (.int 2) .parallel (.forLoop 1 (.int 0) (.int 3) .serial body) =
      Stmt.loopNest [(0, 2, .parallel), (1, 3, .serial)] body := rfl
  have hL : F₆.outputShape = .ok [2] := rfl
  have hbind : ∀ v ∈ body.loopVars, v ≠ 3 ∧ v ∉ [(0, (2 : Int), ForKind.parallel),
      (1, 3, .serial)].map (·.1) := by simp [body, Stmt.loopVars]
  have hrun := exec_partitionLoop heap ρ hop (show _ = F₆.inputDim from rfl) hL hbind hM hs'
  have hs₀ := partitionLoop_eq_ok hop (show _ = F₆.inputDim from rfl) hL hM hs'
  refine ⟨rfl, rfl, ?_, ?_, ?_, ?_⟩
  · simp [hs₀, freshVars, Stmt.loopNest, Stmt.subst, Stmt.loopPragmaUnroll, Stmt.loopVars, body,
      Stmt.varBound, PrimExpr.varBound, PrimExpr.varBoundList]
  · simp [hs₀, freshVars, Stmt.loopNest, Stmt.subst, Stmt.loopPragmaUnroll, Stmt.loopVars, body,
      Stmt.varBound, PrimExpr.varBound, PrimExpr.varBoundList]
  · simp [hrun, boxPoints, shapeBox, Range.values, Range.ofExtent, Stmt.exec, PrimExpr.eval,
      List.range_succ, body]
  · simp [Stmt.exec, PrimExpr.eval, List.range_succ]

/-- The enumeration engine accepts that partition. -/
theorem partition_collects_nested_table :
    ∃ s, partitionLoopNumThread tableEngine (.forLoop 0 (.int 0) (.int 2) .parallel
        (.forLoop 1 (.int 0) (.int 3) .serial (.forLoop 2 (.int 0) (.int 2) .parallel
          (.bufferStore 0 (.var 0) [.var 0, .var 1, .var 2])))) 3 2 = .ok s ∧ 1 ∉ s.loopVars ∧
      ((List.range 2).flatMap fun t : Nat =>
        s.exec Heap.zero (Function.update (fun _ => 0) 3 t)).length = 8 := by
  obtain ⟨s, hs⟩ : ∃ s, partitionLoopNumThread tableEngine (.forLoop 0 (.int 0) (.int 2) .parallel
      (.forLoop 1 (.int 0) (.int 3) .serial (.forLoop 2 (.int 0) (.int 2) .parallel
        (.bufferStore 0 (.var 0) [.var 0, .var 1, .var 2])))) 3 2 = .ok s := ⟨_, rfl⟩
  obtain ⟨-, -, h1, -, h8, -⟩ := partition_collects_nested tableEngine Heap.zero (fun _ => 0) s hs
  exact ⟨s, hs, h1, h8⟩

end TileLayout
