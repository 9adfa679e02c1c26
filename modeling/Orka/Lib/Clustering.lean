import Orka.Lib.LeastSquares

/-!
# Descent of alternating clustering

Points are assigned to centers, and the cost of an assignment is the sum over the points of their weight times the weighted squared
distance to their center. Taking a nearest center for each point and then the mean of each cluster for its center are the two halves
of an iteration, and neither increases the cost, whatever the weights of the points and of the dimensions.
-/

namespace Clustering

open LeastSquares

section Cost

variable {ι κ δ α : Type} [Field α]

/-- The weighted squared distance. -/
def sqDist (D : Finset δ) (w x c : δ → α) : α := ∑ d ∈ D, w d * (x d - c d) ^ 2

/-- The cost of an assignment. -/
def cost (I : Finset ι) (D : Finset δ) (s : ι → α) (w : δ → α) (x : ι → δ → α) (c : κ → δ → α) (a : ι → κ) : α :=
  ∑ i ∈ I, s i * sqDist D w (x i) (c (a i))

variable [DecidableEq κ]

/-- The weight of a cluster. -/
def mass (I : Finset ι) (s : ι → α) (a : ι → κ) (j : κ) : α := ∑ i ∈ I.filter fun i => a i = j, s i

/-- The weighted sum of a cluster. -/
def moment (I : Finset ι) (s : ι → α) (x : ι → δ → α) (a : ι → κ) (j : κ) (d : δ) : α := ∑ i ∈ I.filter fun i => a i = j, s i * x i d

/-- The cost is a sum of squared errors, one for each dimension and cluster. -/
theorem cost_eq (I : Finset ι) (D : Finset δ) (s : ι → α) (w : δ → α) (x : ι → δ → α) (c : κ → δ → α) (a : ι → κ) :
    cost I D s w x c a =
      ∑ d ∈ D, w d * ∑ j ∈ I.image a, sqError (I.filter fun i => a i = j) s (fun i => x i d) (fun _ => 1) (c j d) := by
  have hcluster : ∀ d ∈ D, ∑ i ∈ I, s i * (x i d - c (a i) d) ^ 2 =
      ∑ j ∈ I.image a, sqError (I.filter fun i => a i = j) s (fun i => x i d) (fun _ => 1) (c j d) := by
    intro d _
    rw [← Finset.sum_fiberwise_of_maps_to fun i hi => Finset.mem_image_of_mem a hi]
    refine Finset.sum_congr rfl fun j _ => Finset.sum_congr rfl fun i hi => ?_
    rw [(Finset.mem_filter.1 hi).2, mul_one]
  calc cost I D s w x c a = ∑ i ∈ I, ∑ d ∈ D, w d * (s i * (x i d - c (a i) d) ^ 2) := by
        refine Finset.sum_congr rfl fun i _ => ?_
        rw [sqDist, Finset.mul_sum]
        exact Finset.sum_congr rfl fun d _ => mul_left_comm _ _ _
    _ = ∑ d ∈ D, w d * ∑ i ∈ I, s i * (x i d - c (a i) d) ^ 2 := by
        rw [Finset.sum_comm]
        exact Finset.sum_congr rfl fun d _ => (Finset.mul_sum _ _ _).symm
    _ = _ := Finset.sum_congr rfl fun d hd => by rw [hcluster d hd]

end Cost

section Descent

variable {ι κ δ α : Type} [Field α] [LinearOrder α] [IsStrictOrderedRing α]
variable {I : Finset ι} {D : Finset δ} {s : ι → α} {w : δ → α} {x : ι → δ → α} {c c' : κ → δ → α} {a a' : ι → κ}

/-- Nearer centers cost no more. -/
theorem cost_le_of_nearest (hs : ∀ i ∈ I, 0 ≤ s i) (h : ∀ i ∈ I, sqDist D w (x i) (c (a i)) ≤ sqDist D w (x i) (c (a' i))) :
    cost I D s w x c a ≤ cost I D s w x c a' :=
  Finset.sum_le_sum fun i hi => mul_le_mul_of_nonneg_left (h i hi) (hs i hi)

variable [DecidableEq κ]

/-- **Moving the centers.** Where the centers of the clusters with weight move to the means and the others stay, the cost does not
increase. -/
theorem cost_update_le (hs : ∀ i ∈ I, 0 ≤ s i) (hw : ∀ d ∈ D, 0 ≤ w d)
    (hmean : ∀ j ∈ I.image a, 0 < mass I s a j → ∀ d ∈ D, c' j d = moment I s x a j d / mass I s a j) :
    cost I D s w x c' a ≤ cost I D s w x c a := by
  rw [cost_eq, cost_eq]
  refine Finset.sum_le_sum fun d hd => mul_le_mul_of_nonneg_left (Finset.sum_le_sum fun j hj => ?_) (hw d hd)
  have hs' : ∀ i ∈ I.filter fun i => a i = j, 0 ≤ s i := fun i hi => hs i (Finset.mem_filter.1 hi).1
  have hmass : energy (I.filter fun i => a i = j) s (fun _ => 1) = mass I s a j :=
    Finset.sum_congr rfl fun i _ => by rw [one_pow, mul_one]
  have hmoment : correlation (I.filter fun i => a i = j) s (fun i => x i d) (fun _ => 1) = moment I s x a j d :=
    Finset.sum_congr rfl fun i _ => by rw [mul_one]
  rcases (Finset.sum_nonneg hs').eq_or_lt with hzero | hpos
  · -- a cluster without weight has no error
    have hweight := (Finset.sum_eq_zero_iff_of_nonneg hs').1 hzero.symm
    have hnone : ∀ t, sqError (I.filter fun i => a i = j) s (fun i => x i d) (fun _ => 1) t = 0 :=
      fun t => Finset.sum_eq_zero fun i hi => by rw [hweight i hi, zero_mul]
    rw [hnone, hnone]
  · rw [hmean j hj hpos d hd, ← hmass, ← hmoment]
    exact sqError_vertex_le (hmass ▸ hpos) _

end Descent

end Clustering
