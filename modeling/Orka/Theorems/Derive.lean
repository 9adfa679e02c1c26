import Orka.Derive

/-!
# Verdicts within the rails

`derive_config` does not call `validate_config`. When every decision it returns would pass, tensor by tensor: what the policy, the
cache and the text of a language model may say.
-/

namespace Orka

open Dynamic Steps

set_option linter.unusedSectionVars false

variable {α : Type} [Field α] [LinearOrder α] [FloorRing α]

/-! ## Rails -/

/-- The decision is one the rails allow for the role. -/
def Verdict.Railed (role : String) (v : Verdict α) : Prop :=
  (v.method = "rvq" ∧ role ∉ ["out-head", "norm", "bias"] ∧ v.bits ∈ [2, 3, 4, 6, 8] ∧ 1 ≤ v.stages) ∨
    (v.method = "int8" ∧ role ∉ ["norm", "bias"]) ∨ (v.method = "fp16" ∧ v.keepFp16 = true)

/-- One check of a chain of checks. -/
theorem check_eq_ok {c : Prop} [Decidable c] {e : Exc} {r : Except Exc Unit} :
    (if c then .error e else r) = .ok () ↔ ¬c ∧ r = .ok () := by
  by_cases hc : c
  · rw [if_pos hc]
    exact ⟨nofun, fun h => absurd hc h.1⟩
  · rw [if_neg hc]
    exact (and_iff_right hc).symm

/-- The railed configuration passes exactly when the role's rails allow it. -/
theorem validateConfig_railed_iff (role : String) (cfg : DerivedConfig α) :
    validateConfig role cfg.railed = .ok () ↔ cfg.Railed role := by
  unfold validateConfig Verdict.Railed DerivedConfig.railed
  simp only [check_eq_ok, List.mem_cons, List.not_mem_nil, or_false, not_not, not_or, not_and, Bool.not_eq_eq_eq_not,
    Bool.not_true, Bool.not_eq_false, not_lt, and_true]
  by_cases hrvq : cfg.method = "rvq"
  · simp [hrvq]
    tauto
  by_cases hint : cfg.method = "int8"
  · simp [hint]
  by_cases hfp : cfg.method = "fp16"
  · simp [hfp]
    tauto
  · simp [hrvq, hint, hfp]

/-! ## The policy -/

/-- Where the role's prior is `rvq`, one of the probed widths reaches the target. -/
def PolicyFits (role : String) (signals : Signals α) : Prop :=
  (rolePrior role : RolePrior α).method = "rvq" → ∃ c ∈ signals.sqnrCurve, reachesTarget c.2 = true

/-- The knee is a width the packer takes exactly if one of the widths reaches the target. -/
theorem knee_mem_iff {w : Weight α} {signals : Signals α} (h : probeTensor w = .ok signals) :
    (signals.rdKneeBits : ℤ) ∈ [2, 3, 4, 6, 8] ↔ ∃ c ∈ signals.sqnrCurve, reachesTarget c.2 = true := by
  obtain ⟨lanes, -, rfl⟩ := map_eq_ok.1 h
  simp only
  cases hfind : (probeWidths.map fun b => (b, sqnrRatio lanes b)).find? fun c => reachesTarget c.2 with
  | none =>
    rw [List.find?_eq_none] at hfind
    refine iff_of_false ?_ ?_
    · rw [Option.map_none, Option.getD_none]
      decide
    rintro ⟨c, hc, hr⟩
    exact hfind c hc hr
  | some c =>
    have hc := List.mem_of_find?_eq_some hfind
    obtain ⟨b, hb, rfl⟩ := List.mem_map.1 hc
    have hreaches := List.find?_some hfind
    refine iff_of_true ?_ ⟨_, hc, hreaches⟩
    have hwidths : ∀ b ∈ probeWidths, (b : ℤ) ∈ [2, 3, 4, 6, 8] := by decide
    exact hwidths b hb

/-- The rails of a role allow the method of its prior. -/
theorem rolePrior_cases (role : String) :
    (rolePrior role : RolePrior α).method = "fp16" ∨
      ((rolePrior role : RolePrior α).method = "int8" ∧ role ∉ ["norm", "bias"]) ∨
        ((rolePrior role : RolePrior α).method = "rvq" ∧ role ∉ ["out-head", "norm", "bias"]) := by
  unfold rolePrior
  split
  · next h => exact Or.inr (Or.inl ⟨rfl, by rw [h]; decide⟩)
  next hhead =>
  split
  · next h => exact Or.inr (Or.inr ⟨rfl, by rw [h]; decide⟩)
  split
  · exact Or.inl rfl
  next hnorm =>
  have hrails : role ∉ ["out-head", "norm", "bias"] := by
    rw [List.mem_cons]
    exact not_or.2 ⟨hhead, hnorm⟩
  split
  · exact Or.inr (Or.inr ⟨rfl, hrails⟩)
  split
  · exact Or.inr (Or.inr ⟨rfl, hrails⟩)
  split
  · exact Or.inl rfl
  · exact Or.inl rfl

/-- The policy keeps to the rails exactly if a width of the probe reaches the target where one is needed. -/
theorem policyDecide_railed_iff {w : Weight α} {signals : Signals α} (h : probeTensor w = .ok signals) (role : String) :
    (policyDecide role signals).1.Railed role ↔ PolicyFits role signals := by
  unfold policyDecide PolicyFits
  simp only
  rcases rolePrior_cases (α := α) role with hm | ⟨hm, hrole⟩ | ⟨hm, hrole⟩
  · rw [if_pos hm]
    exact iff_of_true (Or.inr (Or.inr ⟨rfl, rfl⟩)) fun h => absurd (hm.symm.trans h) (by decide)
  · rw [if_neg (by rw [hm]; decide), if_pos hm]
    exact iff_of_true (Or.inr (Or.inl ⟨rfl, hrole⟩)) fun h => absurd (hm.symm.trans h) (by decide)
  · rw [if_neg (by rw [hm]; decide), if_neg (by rw [hm]; decide), ← knee_mem_iff h]
    constructor
    · rintro (⟨-, -, hbits, -⟩ | ⟨hint, -⟩ | ⟨hfp, -⟩) -
      · exact hbits
      · exact absurd (show "rvq" = "int8" from hint) (by decide)
      · exact absurd (show "rvq" = "fp16" from hfp) (by decide)
    · intro hbits
      refine Or.inl ⟨rfl, hrole, hbits hm, ?_⟩
      change (1 : ℤ) ≤ 2 + if (rolePrior role : RolePrior α).extraStage then 1 else 0
      split <;> decide

/-! ## One tensor -/

/-- The probe has a value to take the maximum of wherever it takes one. -/
def Weight.Probeable (w : Weight α) : Prop :=
  match w.shape with
  | [] => False
  | [n] => n ≠ 0
  | a :: b :: rest => b ≠ 0 ∨ a * rest.prod = 0

/-- A weight is probed exactly when it is probeable. -/
theorem exists_probeTensor_iff (w : Weight α) : (∃ signals, probeTensor w = .ok signals) ↔ w.Probeable := by
  have hlanes : (∃ signals, probeTensor w = .ok signals) ↔ ∃ lanes, w.lanes = .ok lanes := by
    constructor
    · rintro ⟨signals, h⟩
      obtain ⟨lanes, hl, -⟩ := map_eq_ok.1 h
      exact ⟨lanes, hl⟩
    · rintro ⟨lanes, hl⟩
      exact ⟨_, map_eq_ok.2 ⟨lanes, hl, rfl⟩⟩
  rw [hlanes]
  unfold Weight.lanes Weight.Probeable
  cases w.shape with
  | nil => exact iff_of_false nofun not_false
  | cons a rest =>
    cases rest with
    | nil =>
      simp only
      by_cases h : a = 0
      · rw [if_pos ⟨h, by decide⟩]
        exact iff_of_false nofun fun hne => hne h
      · rw [if_neg fun hz => h hz.1]
        exact iff_of_true ⟨_, rfl⟩ h
    | cons b rest =>
      simp only
      by_cases h : b = 0 ∧ a * rest.prod ≠ 0
      · rw [if_pos h]
        exact iff_of_false nofun fun hor => hor.elim (fun hb => hb h.1) h.2
      · rw [if_neg h]
        exact iff_of_true ⟨_, rfl⟩ (by tauto)

variable (args : DeriveArgs α)

/-- Where the decision for a tensor comes from. -/
inductive Provenance (α : Type) where
  | policy
  | cached (verdict : Verdict α)
  | asked (text : String)

/-- The cache before a tensor and its signals tell where its decision comes from. -/
def provenance (cache : Cache α) (w : Weight α) (signals : Signals α) : Provenance α :=
  let (role, roleConf) := classifyRole w.name w.shape
  if args.useLlm && shouldEscalate roleConf signals (rolePrior role : RolePrior α).confidence false then
    match cache (signature args role w.shape signals), args.llmFn with
    | some verdict, _ => .cached verdict
    | none, some llmFn => .asked (llmFn w.name)
    | none, none => .policy
  else .policy

/-- A text holds no object with a known method, or numbers that are none, and the policy keeps to the rails; or it holds a decision
that does. An object whose method is a list or another object, or whose bits or stages are no number at all or infinite, is
neither. -/
def TextFits (role : String) (signals : Signals α) (text : String) : Prop :=
  match parseText args text with
  | .error e => e.kind = .valueError ∧ PolicyFits role signals
  | .ok (d, method) =>
    match toInt args (getD d "bits" (.int 8)), toInt args (getD d "stages" (.int 0)) with
    | .ok bits, .ok stages =>
      (⟨method, bits, stages, getD d "normalization" (.str "block-max"), (getD d "keep_fp16" (.bool false)).truth⟩ :
        Verdict α).Railed role
    | .error e, _ => e.kind = .valueError ∧ PolicyFits role signals
    | .ok _, .error e => e.kind = .valueError ∧ PolicyFits role signals

/-- What a tensor and the cache before it must be like: the tensor can be probed, and the source of its decision keeps to the rails
of its role. -/
def Sound (cache : Cache α) (w : Weight α) : Prop :=
  w.Probeable ∧ ∀ signals, probeTensor w = .ok signals →
    match provenance args cache w signals with
    | .policy => PolicyFits (classifyRole w.name w.shape : String × α).1 signals
    | .cached verdict => verdict.Railed (classifyRole w.name w.shape : String × α).1
    | .asked text => TextFits args (classifyRole w.name w.shape : String × α).1 signals text

/-- A decision passes `validate_config` for the role of its tensor. -/
def Passes (w : Weight α) (cfg : DerivedConfig α) : Prop :=
  validateConfig (classifyRole w.name w.shape : String × α).1 cfg.railed = .ok ()

/-- The policy's confidence is the role's. -/
theorem policyDecide_snd (role : String) (signals : Signals α) :
    (policyDecide role signals).2 = (rolePrior role : RolePrior α).confidence := by
  unfold policyDecide
  simp only
  split
  · rfl
  split
  · rfl
  · rfl

/-- The text of a model fits exactly if the decision read from it, or else the policy's, keeps to the rails. -/
theorem textFits_iff {role : String} {signals : Signals α} {text : String} :
    TextFits args role signals text ↔ (∃ cfg, decideWithLlm args text = .ok cfg ∧ cfg.Railed role) ∨
      ∃ e, decideWithLlm args text = .error e ∧ e.kind = .valueError ∧ PolicyFits role signals := by
  -- of a decision only one of the two cases is left, and of an exception the other
  have hok (cfg : DerivedConfig α) : cfg.Railed role ↔ (∃ cfg', Except.ok (ε := Exc) cfg = .ok cfg' ∧ cfg'.Railed role) ∨
      ∃ e, Except.ok (ε := Exc) cfg = .error e ∧ e.kind = .valueError ∧ PolicyFits role signals := by
    refine ⟨fun h => Or.inl ⟨cfg, rfl, h⟩, ?_⟩
    rintro (⟨cfg', h, hr⟩ | ⟨e, h, -⟩)
    · obtain rfl := Except.ok.inj h
      exact hr
    · cases h
  have herror (e : Exc) : (e.kind = .valueError ∧ PolicyFits role signals) ↔
      (∃ cfg, (Except.error e : Except Exc (DerivedConfig α)) = .ok cfg ∧ cfg.Railed role) ∨
        ∃ e', (Except.error e : Except Exc (DerivedConfig α)) = .error e' ∧ e'.kind = .valueError ∧ PolicyFits role signals := by
    refine ⟨fun h => Or.inr ⟨e, rfl, h⟩, ?_⟩
    rintro (⟨cfg, h, -⟩ | ⟨e', h, hr⟩)
    · cases h
    · obtain rfl := Except.error.inj h
      exact hr
  unfold TextFits decideWithLlm
  cases parseText args text with
  | error e => exact herror e
  | ok parsed =>
    obtain ⟨d, method⟩ := parsed
    simp only [ok_bind]
    cases toInt args (getD d "bits" (.int 8)) with
    | error e => exact herror e
    | ok bits =>
      simp only [ok_bind]
      cases toInt args (getD d "stages" (.int 0)) with
      | error e => exact herror e
      | ok stages => exact hok ⟨⟨method, bits, stages, _, _⟩, _, _, _⟩

/-- What a tensor that can be probed comes to, by the source of its decision. -/
theorem deriveTensor_eq {cache : Cache α} {w : Weight α} {signals : Signals α} (h : probeTensor w = .ok signals) :
    deriveTensor args cache w =
      match provenance args cache w signals with
      | .policy => .ok ((policyDecide (classifyRole w.name w.shape : String × α).1 signals).1, cache)
      | .cached verdict => .ok (⟨verdict, "cache", 75 / 100, .str "cached"⟩, cache)
      | .asked text =>
        match decideWithLlm args text with
        | .ok cfg => .ok (cfg, Function.update cache
            (signature args (classifyRole w.name w.shape : String × α).1 w.shape signals) (some cfg.toVerdict))
        | .error e =>
          if e.kind = .valueError then .ok ((policyDecide (classifyRole w.name w.shape : String × α).1 signals).1, cache)
          else .error e := by
  unfold deriveTensor provenance
  rw [h, ok_bind]
  simp only [policyDecide_snd]
  split
  · cases cache (signature args (classifyRole w.name w.shape : String × α).1 w.shape signals) with
    | some verdict => rfl
    | none =>
      cases args.llmFn with
      | none => rfl
      | some llmFn => rfl
  · rfl

/-- A derived configuration passes exactly when the derivation is sound. -/
theorem deriveTensor_passes_iff (cache : Cache α) (w : Weight α) :
    (∃ cfg cache', deriveTensor args cache w = .ok (cfg, cache') ∧ Passes w cfg) ↔ Sound args cache w := by
  unfold Sound Passes
  simp only [validateConfig_railed_iff]
  constructor
  · rintro ⟨cfg, cache', h, hr⟩
    obtain ⟨signals, hs, -⟩ := bind_eq_ok.1 h
    refine ⟨(exists_probeTensor_iff w).1 ⟨signals, hs⟩, fun signals' hs' => ?_⟩
    obtain rfl := Except.ok.inj (hs.symm.trans hs')
    rw [deriveTensor_eq args hs] at h
    cases ho : provenance args cache w signals with
    | policy =>
      rw [ho] at h
      obtain ⟨rfl, rfl⟩ := Prod.mk.inj (Except.ok.inj h)
      exact (policyDecide_railed_iff hs _).1 hr
    | cached verdict =>
      rw [ho] at h
      obtain ⟨rfl, rfl⟩ := Prod.mk.inj (Except.ok.inj h)
      exact hr
    | asked text =>
      rw [ho] at h
      refine (textFits_iff args).2 ?_
      simp only at h
      split at h
      · next cfg' hd =>
        obtain ⟨rfl, -⟩ := Prod.mk.inj (Except.ok.inj h)
        exact Or.inl ⟨_, hd, hr⟩
      · next e hd =>
        split at h
        · next hk =>
          obtain ⟨rfl, -⟩ := Prod.mk.inj (Except.ok.inj h)
          exact Or.inr ⟨e, hd, hk, (policyDecide_railed_iff hs _).1 hr⟩
        · cases h
  · rintro ⟨hp, hall⟩
    obtain ⟨signals, hs⟩ := (exists_probeTensor_iff w).2 hp
    have hfits := hall signals hs
    rw [deriveTensor_eq args hs]
    cases ho : provenance args cache w signals with
    | policy =>
      rw [ho] at hfits
      exact ⟨_, _, rfl, (policyDecide_railed_iff hs _).2 hfits⟩
    | cached verdict =>
      rw [ho] at hfits
      exact ⟨_, _, rfl, hfits⟩
    | asked text =>
      rw [ho] at hfits
      rcases (textFits_iff args).1 hfits with ⟨cfg, hd, hr⟩ | ⟨e, hd, hk, hr⟩
      · simp only [hd]
        exact ⟨_, _, rfl, hr⟩
      · simp only [hd, if_pos hk]
        exact ⟨_, _, rfl, (policyDecide_railed_iff hs _).2 hr⟩

/-! ## The whole map -/

/-- `derive_config` returns, and every decision it returns passes `validate_config`. -/
def DerivesValid (cache : Cache α) (weights : List (Weight α)) : Prop :=
  ∃ out cache', deriveConfig args cache weights = .ok (out, cache') ∧ ∀ p ∈ out, Passes p.1 p.2

theorem deriveConfig_cons {cache cache' : Cache α} {w : Weight α} {cfg : DerivedConfig α} (weights : List (Weight α))
    (h : deriveTensor args cache w = .ok (cfg, cache')) :
    deriveConfig args cache (w :: weights) = (deriveConfig args cache' weights).map fun r => ((w, cfg) :: r.1, r.2) := by
  rw [deriveConfig, h]
  rfl

/-- The weights derive validly exactly when the first does and then the rest. -/
theorem derivesValid_cons_iff (cache : Cache α) (w : Weight α) (weights : List (Weight α)) :
    DerivesValid args cache (w :: weights) ↔
      ∃ cfg cache', (deriveTensor args cache w = .ok (cfg, cache') ∧ Passes w cfg) ∧ DerivesValid args cache' weights := by
  unfold DerivesValid
  constructor
  · rintro ⟨out, last, h, hall⟩
    obtain ⟨⟨cfg, cache'⟩, hw, -⟩ := bind_eq_ok.1 h
    rw [deriveConfig_cons args weights hw] at h
    obtain ⟨⟨rest, last'⟩, hrest, h⟩ := map_eq_ok.1 h
    obtain ⟨rfl, rfl⟩ := Prod.mk.inj h
    obtain ⟨hpass, hall⟩ := List.forall_mem_cons.1 hall
    exact ⟨cfg, cache', ⟨hw, hpass⟩, rest, last', hrest, hall⟩
  · rintro ⟨cfg, cache', ⟨hw, hpass⟩, rest, last', hrest, hall⟩
    exact ⟨(w, cfg) :: rest, last', by rw [deriveConfig_cons args weights hw, hrest, ok_map], List.forall_mem_cons.2 ⟨hpass, hall⟩⟩

/-- **Verdicts within the rails.** `derive_config` returns a map whose every decision passes `validate_config` if and only if, for
each tensor with the cache before it, the tensor can be probed and the source of its decision keeps to the rails of its role. -/
theorem derivesValid_iff (cache : Cache α) (weights : List (Weight α)) :
    DerivesValid args cache weights ↔ ∀ pre w post, weights = pre ++ w :: post →
      ∀ out before, deriveConfig args cache pre = .ok (out, before) → Sound args before w := by
  induction weights generalizing cache with
  | nil =>
    refine iff_of_true ⟨[], cache, rfl, List.forall_mem_nil _⟩ fun pre w post h => ?_
    cases pre <;> cases h
  | cons v weights ih =>
    rw [derivesValid_cons_iff]
    constructor
    · rintro ⟨cfg, cache', hv, hrest⟩ pre w post h out before hpre
      cases pre with
      | nil =>
        obtain ⟨rfl, rfl⟩ := List.cons.inj h
        obtain ⟨-, rfl⟩ := Prod.mk.inj (Except.ok.inj hpre)
        exact (deriveTensor_passes_iff args _ _).1 ⟨cfg, cache', hv⟩
      | cons u pre =>
        obtain ⟨rfl, htail⟩ := List.cons.inj h
        rw [deriveConfig_cons args pre hv.1] at hpre
        obtain ⟨⟨rest, last⟩, hbefore, hlast⟩ := map_eq_ok.1 hpre
        obtain ⟨-, rfl⟩ := Prod.mk.inj hlast
        exact (ih cache').1 hrest pre w post htail rest last hbefore
    · intro hall
      obtain ⟨cfg, cache', hv⟩ := (deriveTensor_passes_iff args cache v).2 (hall [] v weights rfl [] cache rfl)
      refine ⟨cfg, cache', hv, (ih cache').2 fun pre w post h out before hpre => ?_⟩
      refine hall (v :: pre) w post (by rw [h]; rfl) ((v, cfg) :: out) before ?_
      rw [deriveConfig_cons args pre hv.1, hpre, ok_map]

/-! ## Three runs -/

/-- A run for the fewest bits whose language model always returns this text, which `json.loads` reads as this object. -/
def textArgs (text : String) (d : List (String × Value (Extended ℚ))) : DeriveArgs ℚ where
  objective := "min-bits"
  useLlm := true
  llmFn := some fun _ => text
  sha1 key := key
  loads t := if t = text then .ok (.dict d) else .error ⟨.valueError, "Expecting value"⟩
  parseInt _ := .error ⟨.valueError, "invalid literal for int() with base 10"⟩

/-- An object with these members, as text. -/
def objectText (members : String) : String := String.singleton (Char.ofNat 123) ++ members ++ String.singleton (Char.ofNat 125)

/-- An output head of one row whose probe is exact at three bits and below 10 dB at two. -/
def smallHead : Weight ℚ := ⟨"lm_head.weight", [1, 3], [.finite 3, .finite 1, .finite 1], rfl⟩

/-- A row with one large value, which no probed width brings to 30 dB. -/
def peakedRow : Weight ℚ :=
  ⟨"layers.0.self_attn.q_proj.weight", [1, 81], .finite 127 :: List.replicate 80 (.finite (1 / 2)), rfl⟩

/-- What a run decides, and whether each decision passes. -/
def decided (args : DeriveArgs ℚ) (cache : Cache ℚ) (weights : List (Weight ℚ)) : Except Exc (List (String × ℤ × ℤ × Bool)) :=
  (deriveConfig args cache weights).map fun r => r.1.map fun p => (p.2.method, p.2.bits, p.2.stages,
    decide (validateConfig (classifyRole p.1.name p.1.shape : String × ℚ).1 p.2.railed = .ok ()))

/-- Every row of a valid derivation is accepted. -/
theorem decided_of_derivesValid {args : DeriveArgs ℚ} {cache : Cache ℚ} {weights : List (Weight ℚ)}
    {rows : List (String × ℤ × ℤ × Bool)} (h : DerivesValid args cache weights) (hrows : decided args cache weights = .ok rows) :
    ∀ row ∈ rows, row.2.2.2 = true := by
  obtain ⟨out, cache', hout, hall⟩ := h
  rw [decided, hout, ok_map, Except.ok.injEq] at hrows
  rw [← hrows]
  intro row hrow
  obtain ⟨p, hp, rfl⟩ := List.mem_map.1 hrow
  exact decide_eq_true (hall p hp)

/-- The member texts of a verdict of `rvq`, and the object they are read as. -/
def rvqMembers : String := "\"method\": \"rvq\", \"bits\": 4, \"stages\": 2"
def rvqObject : List (String × Value (Extended ℚ)) := [("method", .str "rvq"), ("bits", .int 4), ("stages", .int 2)]

/-- Without a language model the policy gives a row that misses the target sixteen bits; with one an output head becomes `rvq`, in
this run and, from the cache, in a later run without the model; and a `null` for the bits leaves `derive_config` as an exception. -/
theorem verdicts_leave_rails :
    decided { textArgs "" [] with useLlm := false } (fun _ => none) [peakedRow] = .ok [("rvq", 16, 2, false)] ∧
    decided (textArgs (objectText rvqMembers) rvqObject) (fun _ => none) [smallHead] = .ok [("rvq", 4, 2, false)] ∧
    ((deriveConfig (textArgs (objectText rvqMembers) rvqObject) (fun _ => none) [smallHead]).bind fun r =>
      decided { textArgs "" [] with llmFn := none } r.2 [smallHead]) = .ok [("rvq", 4, 2, false)] ∧
    decided (textArgs (objectText "\"method\": \"int8\", \"bits\": null") [("method", .str "int8"), ("bits", .none)])
      (fun _ => none) [smallHead] =
        .error ⟨.typeError, "int() argument must be a string, a bytes-like object or a real number"⟩ ∧
    ¬ DerivesValid { textArgs "" [] with useLlm := false } (fun _ => none) [peakedRow] ∧
    ¬ DerivesValid (textArgs (objectText rvqMembers) rvqObject) (fun _ => none) [smallHead] := by
  have hpeak : decided { textArgs "" [] with useLlm := false } (fun _ => none) [peakedRow] = .ok [("rvq", 16, 2, false)] := by
    decide +kernel
  have hhead : decided (textArgs (objectText rvqMembers) rvqObject) (fun _ => none) [smallHead] = .ok [("rvq", 4, 2, false)] := by
    decide +kernel
  refine ⟨hpeak, hhead, by decide +kernel, by decide +kernel, fun h => ?_, fun h => ?_⟩
  · exact absurd (decided_of_derivesValid h hpeak _ List.mem_cons_self) (by decide)
  · exact absurd (decided_of_derivesValid h hhead _ List.mem_cons_self) (by decide)

end Orka
