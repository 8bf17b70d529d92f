import TileLayout.Layout
/-!
# Fragment

`FragmentNode` extends a layout with a thread map: input `k < InputDim()` is `var k` as in a
layout, and the replication variable `thread_replicate_` is input `InputDim()`.  The thread map
may read both.  `fullLayout` is the layout `FragmentNode::Inverse` hands to `Layout::Inverse`:
inputs and replica to data indices and thread, and a fragment is `Valid` when that layout is.
-/

namespace TileLayout

/-- `FragmentNode`: `forward_var_`, `forward_index_`, `forward_thread_`, `thread_replicate_`. -/
structure Fragment where
  forwardVar : List Range
  forwardIndex : List PrimExpr
  forwardThread : PrimExpr
  threadReplicate : Range

/-- `Fragment::Fragment`: a missing replication variable becomes `make_itervar("unused", 1)`, and
its domain must start at `0`.  With an empty `forward_index` the constructor infers one index
from the thread map (`infer_fragment_index`, built on TVM's `DivideUnusedIterators`); no caller
here passes an empty list, only the FFI can, so every fragment the code builds has
`OutputDim() ≥ 1`.  The model keeps the list it is given and leaves that branch out. -/
def Fragment.make (forwardVar : List Range) (forwardIndex : List PrimExpr)
    (forwardThread : PrimExpr) (threadReplicate : Option Range) : Except String Fragment := do
  let rep := threadReplicate.getD (Range.ofExtent 1)
  icheck (rep.min == 0) "is_zero(thread_replicate->dom->min)"
  pure ⟨forwardVar, forwardIndex, forwardThread, rep⟩

namespace Fragment

/-- `InputDim()`. -/
def inputDim (F : Fragment) : Nat := F.forwardVar.length

/-- `OutputDim()`. -/
def outputDim (F : Fragment) : Nat := F.forwardIndex.length

/-- `InputShape()`. -/
def inputShape (F : Fragment) : List Int := F.forwardVar.map Range.extent

/-- `ReplicateExtent()`: the extent of the replication variable's domain. -/
def replicateExtent (F : Fragment) : Int := F.threadReplicate.extent

/-- The variables `FragmentNode::UpdateAnalyzer` binds: the inputs, then the replica. -/
def boundVars (F : Fragment) : List Range := F.forwardVar ++ [F.threadReplicate]

/-- `OutputShape()` of a fragment, its analyzer binding the replica as well. -/
def outputShape (F : Fragment) : Except String (List Int) :=
  F.forwardIndex.mapM (outputExtent F.boundVars)

/-- `ThreadExtent()`: `int_set(forward_thread_ + 1)` must start at `1`; its maximum. -/
def threadExtent (F : Fragment) : Except String Int := outputExtent F.boundVars F.forwardThread

/-- The layout `FragmentNode::Inverse` builds: inputs and replica to data indices and thread. -/
def fullLayout (F : Fragment) : Layout := ⟨F.boundVars, F.forwardIndex ++ [F.forwardThread]⟩

/-- The data index at an input point and replica (`Forward`). -/
def indexAt (F : Fragment) (x : List Int) (r : Int) : List Int :=
  F.forwardIndex.map (·.valueAt (x ++ [r]))

/-- The thread at an input point and replica (`ForwardThread(x, rep)`). -/
def threadAt (F : Fragment) (x : List Int) (r : Int) : Int := F.forwardThread.valueAt (x ++ [r])

/-- The data index reads only the inputs, not the replica: `Forward(x)` is a function of `x`. -/
def IndexFree (F : Fragment) : Prop :=
  ∀ x, x.length = F.inputDim → ∀ r r', F.indexAt x r = F.indexAt x r'

/-- A fragment is valid when its data index is a function of the inputs and its full layout is
valid: inputs and replica start at `0`, and `(x, rep) ↦ (Forward(x), ForwardThread(x, rep))` is a
bijection from `Prod [0, e_i) × [0, ReplicateExtent())` onto
`Prod [0, OutputShape()) × [0, ThreadExtent())`. -/
def Valid (F : Fragment) : Prop := F.fullLayout.Valid ∧ F.IndexFree

@[simp] theorem length_inputShape (F : Fragment) : F.inputShape.length = F.inputDim := by
  simp [inputShape, inputDim]

@[simp] theorem fullLayout_forwardVar (F : Fragment) : F.fullLayout.forwardVar = F.boundVars := rfl

theorem fullLayout_apply (F : Fragment) (x : List Int) (r : Int) :
    F.fullLayout.apply (x ++ [r]) = F.indexAt x r ++ [F.threadAt x r] := by
  simp [fullLayout, Layout.apply, indexAt, threadAt]

theorem fullLayout_outputShape_eq_ok {F : Fragment} {S : List Int} :
    F.fullLayout.outputShape = .ok S ↔
      ∃ L T, F.outputShape = .ok L ∧ F.threadExtent = .ok T ∧ S = L ++ [T] := by
  simp only [Layout.outputShape, fullLayout, List.mapM_append, List.mapM_cons, List.mapM_nil,
    Except.bind_eq_ok, outputShape, threadExtent, pure, Except.pure, Except.ok.injEq]
  constructor
  · rintro ⟨L, hL, _, ⟨T, hT, _, rfl, rfl⟩, rfl⟩
    exact ⟨L, T, hL, hT, rfl⟩
  · rintro ⟨L, T, hL, hT, rfl⟩
    exact ⟨L, hL, [T], ⟨T, hT, [], rfl, rfl⟩, rfl⟩

end Fragment

/-! ## Repeat, Replicate, DeReplicate -/

/-- `vmap` of `FragmentNode::Repeat`: input `i` becomes `FloorMod(var i, InputShape()[i])`. -/
def repeatVmap (shape : List Int) (k : Nat) : Option PrimExpr :=
  shape[k]?.map fun e => .floorMod (.var k) (.int e)

/-- One turn of the loops building `repeats_index`:
`repeats_index += repeat_stride * FloorDiv(var i, InputShape()[i]); repeat_stride *= repeats[i]`. -/
def repeatsIndexStep (shape repeats : List Int) (acc : PrimExpr × PrimExpr) (i : Nat) :
    PrimExpr × PrimExpr :=
  (.add acc.1 (.mul acc.2 (.floorDiv (.var i) (.int (shape.getD i 0)))),
    .mul acc.2 (.int (repeats.getD i 0)))

/-- The dimensions in the order the `repeats_index` loop visits them: last to first when
`lower_dim_first`, first to last otherwise. -/
def repeatOrder (n : Nat) (lowerDimFirst : Bool) : List Nat :=
  if lowerDimFirst then (List.range n).reverse else List.range n

/-- `repeats_index`, starting from `0` with stride `1`. -/
def repeatsIndex (shape repeats : List Int) (lowerDimFirst : Bool) : PrimExpr :=
  ((repeatOrder shape.length lowerDimFirst).foldl (repeatsIndexStep shape repeats)
    (.int 0, .int 1)).1

/-- The domains of `new_forward_var` in `FragmentNode::Repeat`,
`Range(v->dom->min, v->dom->extent * repeats[i])`: the two-argument `Range(begin, end)` keeps the
minimum and makes the extent `end - begin`. -/
def repeatRanges (vars : List Range) (repeats : List Int) : List Range :=
  List.zipWith (fun v c => Range.mk v.min (v.extent * c - v.min)) vars repeats

@[simp] theorem length_repeatRanges (vars : List Range) (repeats : List Int) :
    (repeatRanges vars repeats).length = min vars.length repeats.length := List.length_zipWith _ _ _

/-- `FragmentNode::Repeat(repeats, repeat_on_thread, lower_dim_first)`: each input domain grows
by its repeat count, the original coordinate is recovered by `FloorMod`, and the tile number
`repeats_index` offsets either the thread (by `ThreadExtent()`) or the single data index (by
`OutputShape()[0]`). -/
def Fragment.repeat (F : Fragment) (repeats : List Int) (repeatOnThread lowerDimFirst : Bool) :
    Except String Fragment := do
  icheck (repeats.length == F.inputDim) "repeats.size() == InputDim()"
  let newForwardVar := repeatRanges F.forwardVar repeats
  let vmap := repeatVmap F.inputShape
  let repeatsIdx := repeatsIndex F.inputShape repeats lowerDimFirst
  if repeatOnThread then
    let threadSize ← F.threadExtent
    Fragment.make newForwardVar (F.forwardIndex.map (·.subst vmap))
      (.add (F.forwardThread.subst vmap) (.mul (.int threadSize) repeatsIdx)) (some F.threadReplicate)
  else
    icheck (F.outputDim == 1) "OutputDim() == 1"
    let fragLen := (← F.outputShape).getD 0 0
    Fragment.make newForwardVar
      [.add ((F.forwardIndex.getD 0 (.int 0)).subst vmap) (.mul (.int fragLen) repeatsIdx)]
      (F.forwardThread.subst vmap) (some F.threadReplicate)

/-- `vmap` of `FragmentNode::Replicate`: the old replica (input `n`) becomes `FloorMod(rep, R)`. -/
def replicateVmap (n : Nat) (R : Int) (k : Nat) : Option PrimExpr :=
  if k = n then some (.floorMod (.var n) (.int R)) else none

/-- `FragmentNode::Replicate(repeats)`: the replica domain grows `repeats` times; the old replica
is the new one modulo `ReplicateExtent()`, and each block of replicas is moved to its own block of
`ThreadExtent()` threads. -/
def Fragment.replicate (F : Fragment) (repeats : Int) : Except String Fragment := do
  icheck (decide (1 ≤ repeats)) "repeats >= 1"
  let newRep := Range.ofExtent (F.replicateExtent * repeats)
  let vmap := replicateVmap F.inputDim F.replicateExtent
  let threadSize ← F.threadExtent
  Fragment.make F.forwardVar F.forwardIndex
    (.add (F.forwardThread.subst vmap)
      (.mul (.int threadSize) (.floorDiv (.var F.inputDim) (.int F.replicateExtent))))
    (some newRep)

/-- `arith::ZeroAwareGCD`: the gcd of the absolute values, with `gcd(a, 0) = |a|`. -/
def zeroAwareGCD (a b : Int) : Int := Int.gcd a b

/-- `vmap` of `FragmentNode::DeReplicate`: the old replica (input `n`) becomes
`rep * factor + FloorMod(forward_index_[0], factor)`. -/
def deReplicateVmap (n : Nat) (factor : Int) (index : PrimExpr) (k : Nat) : Option PrimExpr :=
  if k = n then some (.add (.mul (.var n) (.int factor)) (.floorMod index (.int factor))) else none

/-- `FragmentNode::DeReplicate()`: with `factor = gcd(ReplicateExtent(), OutputShape()[0])`, the
data index is divided by `factor` and its remainder is folded into the replica.  Both extents
are always constants in the model, so the `as_const_int` fallback to `factor = 1` is not
reached. -/
def Fragment.deReplicate (F : Fragment) : Except String Fragment := do
  icheck (F.outputDim == 1) "OutputDim() == 1"
  let repSize := F.replicateExtent
  let idxSize := (← F.outputShape).getD 0 0
  let factor := zeroAwareGCD repSize idxSize
  if factor == 1 then pure F else
  let rep := Range.ofExtent (repSize.tdiv factor)
  let index := F.forwardIndex.getD 0 (.int 0)
  let vmap := deReplicateVmap F.inputDim factor index
  Fragment.make F.forwardVar [.floorDiv index (.int factor)] (F.forwardThread.subst vmap) (some rep)

end TileLayout
