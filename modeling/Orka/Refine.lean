import Orka.Derive

/-!
# The refine loop

`autoquant/refine.py`: pack, measure, spend more bits on the tensors of the lowest SQNR, and stop when the objective is met or a round
does not help. The two functions a caller passes are pure, and a measurement is a float, so it may be no number.
-/

namespace Orka

open Dynamic

variable {α π : Type} [LinearOrder α]

/-- `Quality`. -/
structure Quality (α : Type) where
  kl : Extended α
  top1 : Extended α
  deriving DecidableEq, Repr

/-- `meets(q, objective, target)`. -/
def meetsObjective (q : Quality α) (objective : String) (target : Option (Extended α)) : Bool :=
  match target with
  | none => false
  | some target =>
    if objective = "min-bits" then q.kl.le target
    else if objective = "max-quality" then true
    else if objective = "knee" then q.kl.le target
    else false

/-- `Signals.sqnr_at(bits)`: the value at the nearest width is taken from the curve first, whether it is needed or not. -/
def Signals.sqnrAt (s : Signals α) (bits : ℤ) : Except Exc (Extended α) :=
  match s.sqnrCurve with
  | [] => .error ⟨.valueError, "min() iterable argument is empty"⟩
  | w :: ws =>
    let nearest := ws.foldl (fun best w => if |(w.1 : ℤ) - bits| < |(best.1 : ℤ) - bits| then w else best) w
    .ok (((w :: ws).find? fun w => (w.1 : ℤ) = bits).getD nearest).2

/-- A map from names to configurations. -/
abbrev Configs (α : Type) := List (String × TensorConfig α)

/-- What `refine` is called with. `sort` stands for `list.sort` by the SQNR, which permutes the list whatever the comparisons of the
keys say. -/
structure RefineArgs (α π : Type) where
  signals : List (String × Signals α)
  objective : String
  target : Option (Extended α)
  packFn : Configs α → π
  pulseFn : π → Quality α
  maxRounds : ℤ := 5
  sort : (scored : List (String × Extended α)) → { sorted : List (String × Extended α) // sorted.Perm scored }

variable (args : RefineArgs α π)

/-- The tensors `attribute` scores: those of the method `rvq` with signals. -/
def attributed (cfg : Configs α) : List (String × Signals α × ℤ) :=
  cfg.filterMap fun c => if c.2.method = "rvq" then (args.signals.lookup c.1).map fun s => (c.1, s, c.2.bits) else none

/-- `attribute(cfg, signals)`: the three of the lowest SQNR at their bits. -/
def attributeTensors (cfg : Configs α) : Except Exc (List String) :=
  ((attributed args cfg).mapM fun c : String × Signals α × ℤ => (c.2.1.sqnrAt c.2.2).map fun sqnr => (c.1, sqnr)).map fun scored =>
    ((args.sort scored).val.take 3).map Prod.fst

/-- `for name in offenders: cfg[name] = escalate_cfg(cfg[name])`. -/
def escalate (offenders : List String) (cfg : Configs α) : Configs α :=
  offenders.foldl (fun cfg name => cfg.map fun c => if c.1 = name then (name, escalateCfg c.2) else c) cfg

/-- `pulse_fn(pack_fn(cfg))`. -/
def RefineArgs.measure (cfg : Configs α) : Quality α := args.pulseFn (args.packFn cfg)

/-- The loop of `refine` from round `r` on, with `n` rounds to go. -/
def refineLoop : ℕ → ℕ → Configs α → Quality α → Except Exc (Configs α × Quality α × ℤ)
  | 0, _, cfg, quality => .ok (cfg, quality, args.maxRounds)
  | n + 1, r, cfg, quality =>
    if meetsObjective quality args.objective args.target then .ok (cfg, quality, r)
    else
      (attributeTensors args cfg).bind fun offenders =>
        if offenders.isEmpty then .ok (cfg, quality, args.maxRounds)
        else
          let cfg := escalate offenders cfg
          let newQ := args.measure cfg
          if quality.kl.le newQ.kl then .ok (cfg, quality, r + 1) else refineLoop n (r + 1) cfg newQ

/-- `refine(cfg, signals, objective, target, pack_fn, pulse_fn, max_rounds)`. -/
def refine (cfg : Configs α) : Except Exc (Configs α × Quality α × ℤ) :=
  refineLoop args args.maxRounds.toNat 0 cfg (args.measure cfg)

end Orka
