import Orka.DeriveTool
import Orka.Theorems.Derive

/-!
# Deriving on the policy's own decisions

The profile changes a role only where there was none, and the prior of no role is dense, so the two classifications never disagree
about a rail. What is left is the probe: a tensor whose prior is `rvq` needs a probed width that reaches the target.
-/

namespace Orka

open Dynamic Steps

set_option linter.unusedSectionVars false

variable {α : Type} [Field α] [LinearOrder α]

/-! ## Roles -/

/-- The profile changes nothing but what has no role. -/
theorem classifyRoleWith_eq_or (name : String) (shape : List ℕ) (tied : Bool) (profile : ArchProfile) :
    (classifyRoleWith name shape tied profile : String × α) = classifyRole name shape ∨
      (classifyRole name shape : String × α).1 = "unknown" := by
  unfold classifyRoleWith classifyRole
  simp only
  split
  · exact .inl rfl
  split
  · exact .inl rfl
  generalize (if classifyTensorFamily name = "other" ∨ classifyTensorFamily name = "attention" then convRole (lowered name) shape
    else none : Option (String × α)) = conv
  cases conv with
  | some conv => exact .inl rfl
  | none =>
  simp only
  split
  · split
    · exact .inl rfl
    split
    · exact .inl rfl
    · exact .inr rfl
  split
  · exact .inl rfl
  split
  · exact .inl rfl
  · exact .inr rfl

variable [FloorRing α]

/-- The policy's decision for a role keeps to the rails of the role, of no role, and of any role if it stays dense. -/
theorem policyDecide_railed_other {w : Weight α} {signals : Signals α} (h : probeTensor w = .ok signals) {role other : String}
    (hother : other = role ∨ other = "unknown" ∨ role = "unknown") :
    (policyDecide role signals).1.Railed other ↔ PolicyFits role signals := by
  have hdense (hm : (rolePrior role : RolePrior α).method = "fp16") :
      (policyDecide role signals).1.Railed other ↔ PolicyFits role signals := by
    unfold policyDecide PolicyFits
    simp only
    rw [if_pos hm]
    exact iff_of_true (.inr (.inr ⟨rfl, rfl⟩)) fun hrvq => absurd (hm.symm.trans hrvq) (by decide)
  rcases hother with rfl | rfl | rfl
  · exact policyDecide_railed_iff h _
  · rw [← policyDecide_railed_iff h role]
    rcases rolePrior_cases (α := α) role with hm | ⟨hm, hrole⟩ | ⟨hm, hrole⟩
    · rw [hdense hm, policyDecide_railed_iff h role]
    · unfold policyDecide Verdict.Railed
      simp [hm, hrole]
    · unfold policyDecide Verdict.Railed
      simp only [List.mem_cons, List.not_mem_nil, or_false, not_or] at hrole
      simp [hm, hrole]
  · exact hdense rfl

/-! ## Validation -/

/-- A map of decisions is valid where each decision is. -/
theorem validateConfigs_eq_ok {cfgs : List (String × TensorConfig α)} {roles : List (String × String)} :
    validateConfigs cfgs roles = .ok () ↔ ∀ c ∈ cfgs, validateConfig ((roles.lookup c.1).getD "unknown") c.2 = .ok () := by
  unfold validateConfigs
  induction cfgs with
  | nil => exact iff_of_true rfl (List.forall_mem_nil _)
  | cons c cfgs ih =>
    rw [List.forall_mem_cons, ← ih]
    change ((validateConfig ((roles.lookup c.1).getD "unknown") c.2).bind fun _ =>
      cfgs.forM fun c => validateConfig ((roles.lookup c.1).getD "unknown") c.2) = .ok () ↔ _
    cases validateConfig ((roles.lookup c.1).getD "unknown") c.2 with
    | error e => exact iff_of_false nofun fun h => nomatch h.1
    | ok u => exact (and_iff_right rfl).symm

/-- What a table by name holds for a tensor of a list of distinct names. -/
theorem lookup_map_name {ws : List (Weight α)} (hn : (ws.map Weight.name).Nodup) (role : Weight α → String) {w : Weight α} (hw : w ∈ ws) :
    (ws.map fun w => (w.name, role w)).lookup w.name = some (role w) := by
  induction ws with
  | nil => cases hw
  | cons v ws ih =>
    rw [List.map_cons, List.nodup_cons] at hn
    rw [List.map_cons, List.lookup_cons]
    rcases List.mem_cons.1 hw with rfl | hw
    · rw [beq_self_eq_true]
    · have hne : w.name ≠ v.name := fun he => hn.1 (he ▸ List.mem_map_of_mem hw)
      rw [beq_eq_false_iff_ne.2 hne]
      exact ih hn.2 hw

/-- A name no weight has is not found. -/
theorem lookup_map_name_none {ws : List (Weight α)} (role : Weight α → String) {name : String} (hw : name ∉ ws.map Weight.name) :
    (ws.map fun w => (w.name, role w)).lookup name = none := by
  rw [List.lookup_eq_none_iff]
  intro p hp
  obtain ⟨v, hv, rfl⟩ := List.mem_map.1 hp
  exact bne_iff_ne.2 fun he => hw (he ▸ List.mem_map_of_mem hv)

/-- The role a tensor is validated with, whether the checkpoint was inspected or not. -/
theorem usedRole_cases (ckpt : CheckpointWeights α) (inspected : Bool) {w : Weight α} (hw : w ∈ ckpt.weights)
    {roles used : List (String × String)} (hroles : roles = if inspected then inspectRoles ckpt else [])
    (hused : used = if roles.isEmpty then ckpt.weights.map fun w => (w.name, (classifyRole w.name w.shape : String × α).1) else roles) :
    (used.lookup w.name).getD "unknown" = (classifyRole w.name w.shape : String × α).1 ∨
      (used.lookup w.name).getD "unknown" = "unknown" ∨ (classifyRole w.name w.shape : String × α).1 = "unknown" := by
  subst hused
  split
  · rw [lookup_map_name ckpt.names _ hw]
    exact .inl rfl
  next hsome =>
  cases inspected with
  | false => exact absurd (by rw [hroles]; rfl) hsome
  | true =>
    rw [if_pos rfl] at hroles
    rw [hroles, inspectRoles]
    generalize hprofile : ArchProfile.fromShapes ((ckpt.weights.filter fun w => 0 < w.shape.prod).map fun w => (w.name, w.shape)) = profile
    generalize htied : (decide ((ckpt.weights.filter fun w => 0 < w.shape.prod).countP
      (fun w => w.shape.length = 2 && profile.vocabSize.any fun vocab => w.shape.headI = vocab) = 1)) = tied
    by_cases hsize : 0 < w.shape.prod
    · have hmem : w ∈ ckpt.weights.filter fun w => 0 < w.shape.prod := List.mem_filter.2 ⟨hw, decide_eq_true hsize⟩
      have hnodup : ((ckpt.weights.filter fun w => 0 < w.shape.prod).map Weight.name).Nodup :=
        (List.filter_sublist.map Weight.name).nodup ckpt.names
      rw [lookup_map_name hnodup _ hmem, Option.getD_some]
      rcases classifyRoleWith_eq_or (α := α) w.name w.shape tied profile with he | hu
      · exact .inl (by rw [he])
      · exact .inr (.inr hu)
    · refine .inr (.inl ?_)
      rw [lookup_map_name_none _ fun hmem => ?_, Option.getD_none]
      obtain ⟨v, hv, hname⟩ := List.mem_map.1 hmem
      have hmem := List.mem_filter.1 hv
      rw [List.inj_on_of_nodup_map ckpt.names hmem.1 hw hname] at hmem
      exact hsize (of_decide_eq_true hmem.2)

/-! ## Deriving -/

/-- Without a language model the decision is the policy's. -/
theorem deriveTensor_policy (args : DeriveArgs α) (cache : Cache α) (w : Weight α) :
    deriveTensor { args with useLlm := false } cache w =
      (probeTensor w).map fun signals => ((policyDecide (classifyRole w.name w.shape : String × α).1 signals).1, cache) := by
  unfold deriveTensor
  cases probeTensor w with
  | error e => rfl
  | ok signals => rfl

/-- Under the policy the weights are derived one by one. -/
theorem deriveConfig_policy_iff (args : DeriveArgs α) (cache : Cache α) (weights : List (Weight α))
    (P : Weight α × DerivedConfig α → Prop) :
    (∃ out cache', deriveConfig { args with useLlm := false } cache weights = .ok (out, cache') ∧ ∀ p ∈ out, P p) ↔
      ∀ w ∈ weights, ∃ signals, probeTensor w = .ok signals ∧
        P (w, (policyDecide (classifyRole w.name w.shape : String × α).1 signals).1) := by
  induction weights with
  | nil => exact iff_of_true ⟨[], cache, rfl, List.forall_mem_nil _⟩ (List.forall_mem_nil _)
  | cons w weights ih =>
    rw [List.forall_mem_cons, ← ih]
    constructor
    · rintro ⟨out, cache', h, hall⟩
      obtain ⟨⟨cfg, cache''⟩, hw, -⟩ := bind_eq_ok.1 h
      rw [deriveConfig_cons _ weights hw] at h
      rw [deriveTensor_policy] at hw
      obtain ⟨signals, hs, he⟩ := map_eq_ok.1 hw
      obtain ⟨rfl, rfl⟩ := Prod.mk.inj he
      obtain ⟨⟨rest, last⟩, hrest, h⟩ := map_eq_ok.1 h
      obtain ⟨rfl, rfl⟩ := Prod.mk.inj h
      rw [List.forall_mem_cons] at hall
      exact ⟨⟨signals, hs, hall.1⟩, rest, last, hrest, hall.2⟩
    · rintro ⟨⟨signals, hs, hp⟩, rest, last, hrest, hall⟩
      have hw := deriveTensor_policy args cache w
      rw [hs, ok_map] at hw
      refine ⟨_, last, ?_, List.forall_mem_cons.2 ⟨hp, hall⟩⟩
      rw [deriveConfig_cons _ weights hw, hrest, ok_map]

/-- **Deriving on the policy's own decisions.** Whether the checkpoint was inspected before or not, `derive_tool` returns if and only
if every tensor can be probed and, where the prior of its role is `rvq`, reaches the target at one of the probed widths. -/
theorem deriveConfigs_returns_iff (args : DeriveArgs α) (ckpt : CheckpointWeights α) (inspected : Bool) :
    (∃ derived, deriveConfigs args (if inspected then inspectRoles ckpt else []) ckpt = .ok derived) ↔
      ∀ w ∈ ckpt.weights, ∃ signals, probeTensor w = .ok signals ∧ PolicyFits (classifyRole w.name w.shape : String × α).1 signals := by
  generalize hroles : (if inspected then inspectRoles ckpt else []) = roles
  generalize hused : (if roles.isEmpty then ckpt.weights.map fun w => (w.name, (classifyRole w.name w.shape : String × α).1)
    else roles) = used
  have hreturns : (∃ derived, deriveConfigs args roles ckpt = .ok derived) ↔
      ∃ out cache', deriveConfig { args with useLlm := false } (fun _ => none) ckpt.weights = .ok (out, cache') ∧
        ∀ p ∈ out, validateConfig ((used.lookup p.1.name).getD "unknown") p.2.railed = .ok () := by
    unfold deriveConfigs
    rw [hused]
    constructor
    · rintro ⟨derived, h⟩
      obtain ⟨⟨out, cache'⟩, hout, h⟩ := bind_eq_ok.1 h
      obtain ⟨⟨⟩, hvalid, -⟩ := map_eq_ok.1 h
      rw [validateConfigs_eq_ok, List.forall_mem_map] at hvalid
      exact ⟨out, cache', hout, hvalid⟩
    · rintro ⟨out, cache', hout, hvalid⟩
      refine ⟨_, bind_eq_ok.2 ⟨_, hout, map_eq_ok.2 ⟨(), ?_, rfl⟩⟩⟩
      rw [validateConfigs_eq_ok, List.forall_mem_map]
      exact hvalid
  rw [hreturns, deriveConfig_policy_iff args _ ckpt.weights fun p =>
    validateConfig ((used.lookup p.1.name).getD "unknown") p.2.railed = .ok ()]
  refine forall₂_congr fun w hw => exists_congr fun signals => and_congr_right fun hs => ?_
  rw [validateConfig_railed_iff]
  exact policyDecide_railed_other hs (usedRole_cases ckpt inspected hw hroles.symm hused.symm)

/-- A checkpoint of the one row that no probed width brings to 30 dB. -/
def peakedCheckpoint : CheckpointWeights ℚ where
  weights := [peakedRow]
  names := by decide
  dims := by decide

/-- The policy gives it sixteen bits, which `validate_configs` refuses, inspected or not. -/
theorem deriveConfigs_refuses :
    (¬ ∃ derived, deriveConfigs (textArgs "" []) [] peakedCheckpoint = .ok derived) ∧
      ¬ ∃ derived, deriveConfigs (textArgs "" []) (inspectRoles peakedCheckpoint) peakedCheckpoint = .ok derived := by
  have hrefused {r : Except Exc (List (String × TensorConfig ℚ) × List (String × String))} (h : r.toOption.isNone = true) :
      ¬ ∃ derived, r = .ok derived := by
    rintro ⟨derived, rfl⟩
    cases h
  exact ⟨hrefused (by decide +kernel), hrefused (by decide +kernel)⟩

end Orka
