import Orka.Lib.Dict
import Orka.Lib.Machine
import Orka.Lib.Menu

/-!
# Quantization-aware training

`qat/_core.py`, `qat/_offload_optim.py` and the training loop of `qat/train.py`: the cached assignment of a `QATVQLinear`, the
optimizer that keeps its state in host memory, and the saving and resuming of a run. Arithmetic is exact; of a parameter's version
only its increments matter. An index is cached in a type that holds every index of its codebook.
-/

namespace Orka

open Flat Menu

section Qat

variable {α : Type} [Field α] [LinearOrder α]

/-- A parameter: the identity of the object, its values, its version and its gradient. `hostFloat` says that it lies in host memory
in float32, where `.to("cpu", dtype=torch.float32)` is the tensor itself. -/
structure QatParam (α : Type) where
  id : ℕ
  value : List α
  version : ℕ := 0
  grad : Option (List α) := none
  hostFloat : Bool := false
  deriving DecidableEq

/-- New values written in place, by some number of operations. -/
def QatParam.store (p : QatParam α) (value : List α) (bumps : ℕ) : QatParam α :=
  { p with value := value, version := p.version + bumps }

/-! ## The layer -/

/-- The values of a layer's parameters. -/
structure LayerValues (α : Type) where
  shadow : List α
  scales : List α
  codebooks : List (List α)
  bias : Option (List α) := none
  deriving DecidableEq

/-- `QATVQLinear`. -/
structure QatLinear (α : Type) where
  groupSize : ℕ
  blockSize : ℕ
  reassignEvery : ℤ := 1
  shadow : QatParam α
  scales : QatParam α
  codebooks : List (QatParam α)
  bias : Option (QatParam α) := none
  cachedIdx : Option (List (List ℕ)) := none
  lastVersion : ℤ := -1
  optstepsSince : ℕ := 0
  deriving DecidableEq

/-- `_chunked_assign(vectors, cb)`: for each vector the first row with the least `||c||^2 - 2 v.c`. -/
def chunkedAssign (vectors cb : List (List α)) : List ℕ :=
  vectors.map fun v => argmin cb.length fun k =>
    let c := cb.getD k []
    (c.map fun x => x * x).sum - 2 * (List.zipWith (· * ·) v c).sum

/-- The stages of `_quantize_impl` in turn: what has been decoded and what remains, the assignments used and the codebook loss. -/
structure StageState (α : Type) where
  decoded : List (List α)
  residual : List (List α)
  assigned : List (List ℕ)
  cbLoss : α

/-- Rows added, subtracted or compared place by place. -/
def zipRows (f : α → α → α) (xs ys : List (List α)) : List (List α) := List.zipWith (List.zipWith f) xs ys

/-- One stage, with the cached assignment unless it is refreshed. -/
def quantizeStage (vn : List (List α)) (cached : Option (List (List ℕ))) (st : StageState α) (cb : List (List α)) : StageState α :=
  let assign := match cached with
    | none => chunkedAssign st.residual cb
    | some idx => idx.getD st.assigned.length []
  let sel := assign.map fun i => cb.getD i []
  let decoded := zipRows (· + ·) st.decoded sel
  let errors := (zipRows (fun x y => (x - y) * (x - y)) sel st.residual).flatten
  ⟨decoded, zipRows (· - ·) vn decoded, st.assigned ++ [assign], st.cbLoss + errors.sum / (errors.length : α)⟩

/-- All stages. -/
def quantizeStages (vn : List (List α)) (cached : Option (List (List ℕ))) (cbs : List (List (List α))) : StageState α :=
  cbs.foldl (quantizeStage vn cached) ⟨vn.map fun row => row.map fun _ => 0, vn, [], 0⟩

namespace LayerValues

/-- `vn`, the normalized vectors. -/
def normalized (v : LayerValues α) (groupSize blockSize : ℕ) : List (List α) :=
  rowsOf (v.shadow.length / groupSize) groupSize
    (tabulate v.shadow.length fun i => cell v.shadow i / cell v.scales (i / blockSize))

def codebookRows (v : LayerValues α) (groupSize : ℕ) : List (List (List α)) :=
  v.codebooks.map fun cb => rowsOf (cb.length / groupSize) groupSize cb

/-- The stage-wise nearest-codebook assignment. -/
def stageAssign (v : LayerValues α) (groupSize blockSize : ℕ) : List (List ℕ) :=
  (quantizeStages (v.normalized groupSize blockSize) none (v.codebookRows groupSize)).assigned

end LayerValues

namespace QatLinear

def values (q : QatLinear α) : LayerValues α :=
  ⟨q.shadow.value, q.scales.value, q.codebooks.map QatParam.value, q.bias.map QatParam.value⟩

/-- `_want_refresh()`, with what it notes. -/
def wantRefresh (q : QatLinear α) : Bool × QatLinear α :=
  match q.cachedIdx with
  | none => (true, q)
  | some _ =>
    let noted := if (q.shadow.version : ℤ) ≠ q.lastVersion then
        { q with lastVersion := q.shadow.version, optstepsSince := q.optstepsSince + 1 }
      else q
    (decide (q.reassignEvery ≤ noted.optstepsSince), noted)

/-- `_quantize_impl(shadow, scales, *codebooks)`: the layer with its new cache, the quantized weight and the codebook loss. -/
def quantizeImpl (q : QatLinear α) : QatLinear α × List α × α :=
  let v := q.values
  let vn := v.normalized q.groupSize q.blockSize
  let cbs := v.codebookRows q.groupSize
  let (refresh, noted) := q.wantRefresh
  let after := if refresh then { noted with lastVersion := noted.shadow.version, optstepsSince := 0 } else noted
  let st := quantizeStages vn (if refresh then none else q.cachedIdx) cbs
  let dec := tabulate v.shadow.length fun i => cell st.decoded.flatten i * cell v.scales (i / q.blockSize)
  let wq := List.zipWith (fun x d => x + (d - x)) v.shadow dec
  (if refresh then { after with cachedIdx := some st.assigned } else after, wq, st.cbLoss)

/-- What `forward` leaves in the layer. -/
def forward (q : QatLinear α) : QatLinear α := q.quantizeImpl.1

/-- New values of all parameters, each written in place by the same number of operations. -/
def store (q : QatLinear α) (v : LayerValues α) (bumps : ℕ) : QatLinear α :=
  { q with
    shadow := q.shadow.store v.shadow bumps
    scales := q.scales.store v.scales bumps
    codebooks := List.zipWith (fun p x => p.store x bumps) q.codebooks v.codebooks
    bias := match q.bias, v.bias with
            | some p, some x => some (p.store x bumps)
            | b, _ => b }

end QatLinear

/-! ## The optimizer in host memory -/

/-- The state of a parameter; `none` for `p32` says that it is the parameter itself. -/
structure Moments (α : Type) where
  m : List α
  v : List α
  p32 : Option (List α)
  deriving DecidableEq

/-- `CPUOffloadAdamW`, with its state by the identities of the parameters. -/
structure OffloadAdamW (α : Type) where
  lr : α
  b1 : α
  b2 : α
  eps : α
  wd : α
  t : ℕ := 0
  state : List (ℕ × Moments α) := []
  deriving DecidableEq

namespace OffloadAdamW

variable (sqrt : α → α) (opt : OffloadAdamW α)

/-- `self._state.get(id(p))`. -/
def get? (id : ℕ) : Option (Moments α) := (opt.state.find? fun w => w.1 = id).map Prod.snd

/-- The body of the loop of `step()`: `p32` is written in place, and copied to `p.data`, which does not change `p`'s version. -/
def stepParam (p : QatParam α) : OffloadAdamW α × QatParam α :=
  match p.grad with
  | none => (opt, p)
  | some g =>
    let bc1 := 1 - opt.b1 ^ opt.t
    let bc2 := 1 - opt.b2 ^ opt.t
    let st := (opt.get? p.id).getD
      ⟨g.map fun _ => 0, g.map fun _ => 0, if p.hostFloat then none else some p.value⟩
    let m := List.zipWith (fun m g => opt.b1 * m + (1 - opt.b1) * g) st.m g
    let v := List.zipWith (fun v g => opt.b2 * v + (1 - opt.b2) * (g * g)) st.v g
    let denom := v.map fun v => sqrt (v / bc2) + opt.eps
    let master := st.p32.getD p.value
    let decayed := if opt.wd = 0 then master else master.map fun x => x * (1 - opt.lr * opt.wd)
    let p32 := List.zipWith (fun x q => x - opt.lr * q) decayed (List.zipWith (fun m d => m / bc1 / d) m denom)
    match st.p32 with
    | none => ({ opt with state := Dict.set opt.state p.id ⟨m, v, none⟩ }, p.store p32 (if opt.wd = 0 then 1 else 2))
    | some _ => ({ opt with state := Dict.set opt.state p.id ⟨m, v, some p32⟩ }, p.store p32 0)

/-- The loop of `step()`. -/
def stepParams : OffloadAdamW α → List (QatParam α) → OffloadAdamW α × List (QatParam α)
  | opt, [] => (opt, [])
  | opt, p :: ps =>
    let first := stepParam sqrt opt p
    let rest := stepParams first.1 ps
    (rest.1, first.2 :: rest.2)

/-- `step()`. -/
def step (ps : List (QatParam α)) : OffloadAdamW α × List (QatParam α) := stepParams sqrt { opt with t := opt.t + 1 } ps

/-- `state_dict()`. -/
def stateDict : ℕ × List (ℕ × Moments α) := (opt.t, opt.state)

/-- `load_state_dict(sd)`. -/
def loadStateDict (sd : ℕ × List (ℕ × Moments α)) : OffloadAdamW α := { opt with t := sd.1, state := sd.2 }

end OffloadAdamW

/-! ## Forwards and steps on one layer -/

namespace QatLinear

/-- The parameters in the order in which `main` gives them to the optimizer. -/
def params (q : QatLinear α) : List (QatParam α) := q.shadow :: q.scales :: (q.codebooks ++ q.bias.toList)

/-- The layer with these parameters. -/
def withParams (q : QatLinear α) : List (QatParam α) → QatLinear α
  | shadow :: scales :: rest => { q with
      shadow := shadow, scales := scales
      codebooks := rest.take q.codebooks.length, bias := (rest.drop q.codebooks.length).head? }
  | _ => q

end QatLinear

/-- A layer with the optimizer in host memory, the values its parameters have had, the latest first, and whether a step has come
since the last forward. -/
structure QatRun (α : Type) where
  layer : QatLinear α
  opt : OffloadAdamW α
  past : List (LayerValues α)
  stepped : Bool := false
  deriving DecidableEq

/-- A forward, a step that writes new values in place, by one operation or more on each parameter, or a step of `CPUOffloadAdamW`
with these gradients. -/
inductive QatAct (α : Type) where
  | forward
  | inPlace (v : LayerValues α) (more : ℕ)
  | offload (grads : List (Option (List α)))

namespace QatRun

/-- A layer that has not been used. -/
def start (layer : QatLinear α) (opt : OffloadAdamW α) : QatRun α := ⟨layer, opt, [layer.values], false⟩

def step (sqrt : α → α) (s : QatRun α) : QatAct α → Option (QatRun α)
  | .forward => some { s with layer := s.layer.forward, stepped := false }
  | .inPlace v more =>
    let layer := s.layer.store v (more + 1)
    some { s with layer := layer, past := layer.values :: s.past, stepped := true }
  | .offload grads =>
    if grads.length = s.layer.params.length then
      let stepped := s.opt.step sqrt (List.zipWith (fun p g => { p with grad := g }) s.layer.params grads)
      let layer := s.layer.withParams stepped.2
      some { s with layer := layer, opt := stepped.1, past := layer.values :: s.past, stepped := true }
    else none

end QatRun

end Qat

end Orka
