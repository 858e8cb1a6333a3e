import Mathlib.Algebra.BigOperators.Group.Finset.Basic
import Mathlib.Algebra.Order.BigOperators.Group.Finset
import Mathlib.Tactic

/-!
# Weighted Byzantine quorum systems

A finite set of participants with integer weights of total `n` tolerates the faults of
participants whose weight is at most `f = (n - 1) / 3`. A set is a **strong quorum** when its
weight is at least `(n + f) / 2 + 1` and a **weak quorum** when its weight is at least `f + 1`.

With non-negative weights two strong quorums share more than `f`
(`IsStrong.lt_weight_inter`), so they share a participant outside any fault set
(`IsStrong.exists_mem_inter`), and a strong quorum is a weak one (`IsStrong.isWeak`). Division is
Euclidean, so the bounds are also meaningful for a total of zero, where `f = -1` and no fault
set is admissible.
-/

namespace WeightedQuorum

variable {α : Type*} {M : Finset α} {w : α → ℤ}

/-- The largest tolerated fault weight for a total weight of `n`. -/
def faultBound (n : ℤ) : ℤ := (n - 1) / 3

/-- The weight of a set of participants. -/
def weight (w : α → ℤ) (A : Finset α) : ℤ := ∑ x ∈ A, w x

/-- The tolerated fault weight of a participant set. -/
def tolerance (M : Finset α) (w : α → ℤ) : ℤ := faultBound (weight w M)

/-- **Strong quorum**: weight at least `(n + f) / 2 + 1`. -/
def IsStrong (M : Finset α) (w : α → ℤ) (A : Finset α) : Prop :=
  A ⊆ M ∧ (weight w M + tolerance M w) / 2 + 1 ≤ weight w A

/-- **Weak quorum**: weight at least `f + 1`. -/
def IsWeak (M : Finset α) (w : α → ℤ) (A : Finset α) : Prop :=
  A ⊆ M ∧ tolerance M w + 1 ≤ weight w A

theorem weight_nonneg (hw : ∀ x ∈ M, 0 ≤ w x) {A : Finset α} (hA : A ⊆ M) : 0 ≤ weight w A :=
  Finset.sum_nonneg fun x hx => hw x (hA hx)

theorem weight_mono (hw : ∀ x ∈ M, 0 ≤ w x) {A B : Finset α} (hAB : A ⊆ B) (hB : B ⊆ M) :
    weight w A ≤ weight w B :=
  Finset.sum_le_sum_of_subset_of_nonneg hAB fun x hx _ => hw x (hB hx)

/-- A larger set is a strong quorum as well. -/
theorem IsStrong.mono (hw : ∀ x ∈ M, 0 ≤ w x) {A B : Finset α} (hA : IsStrong M w A)
    (hAB : A ⊆ B) (hB : B ⊆ M) : IsStrong M w B :=
  ⟨hB, hA.2.trans (weight_mono hw hAB hB)⟩

/-- A strong quorum is a weak one. -/
theorem IsStrong.isWeak (hw : ∀ x ∈ M, 0 ≤ w x) {A : Finset α} (hA : IsStrong M w A) :
    IsWeak M w A := by
  refine ⟨hA.1, ?_⟩
  have hn : 0 ≤ weight w M := weight_nonneg hw subset_rfl
  have hq := hA.2
  unfold tolerance faultBound at hq ⊢
  omega

/-- A set of weight above the tolerance has a participant outside every admissible fault
set. -/
theorem exists_mem_of_tolerance_lt [DecidableEq α] (hw : ∀ x ∈ M, 0 ≤ w x) {A F : Finset α}
    (hlt : tolerance M w < weight w A) (hF : F ⊆ M)
    (hFw : weight w F ≤ tolerance M w) : ∃ x ∈ A, x ∉ F := by
  by_contra hno
  have hsub : A ⊆ F := by
    intro x hx
    by_contra hxF
    exact hno ⟨x, hx, hxF⟩
  have hle : weight w A ≤ weight w F := weight_mono hw hsub hF
  omega

/-- **Quorum intersection**: two strong quorums share more than the tolerance. -/
theorem IsStrong.lt_weight_inter [DecidableEq α] (hw : ∀ x ∈ M, 0 ≤ w x) {A B : Finset α}
    (hA : IsStrong M w A) (hB : IsStrong M w B) : tolerance M w < weight w (A ∩ B) := by
  have hsum : weight w (A ∪ B) + weight w (A ∩ B) = weight w A + weight w B :=
    Finset.sum_union_inter
  have hunion : weight w (A ∪ B) ≤ weight w M :=
    weight_mono hw (Finset.union_subset hA.1 hB.1) subset_rfl
  have hqA := hA.2
  have hqB := hB.2
  omega

/-- Two strong quorums share a participant outside every admissible fault set. -/
theorem IsStrong.exists_mem_inter [DecidableEq α] (hw : ∀ x ∈ M, 0 ≤ w x) {A B F : Finset α}
    (hA : IsStrong M w A) (hB : IsStrong M w B) (hF : F ⊆ M)
    (hFw : weight w F ≤ tolerance M w) : ∃ x ∈ A, x ∈ B ∧ x ∉ F := by
  obtain ⟨x, hx, hxF⟩ := exists_mem_of_tolerance_lt hw (hA.lt_weight_inter hw hB) hF hFw
  exact ⟨x, (Finset.mem_inter.mp hx).1, (Finset.mem_inter.mp hx).2, hxF⟩

/-! ### Weights of either sign -/

/-- The participants of negative weight. -/
def negatives (M : Finset α) (w : α → ℤ) : Finset α := {x ∈ M | w x < 0}

/-- A set without negative weights that reaches the threshold `q` still does so together with all
participants of negative weight. -/
def Absorbs (M : Finset α) (w : α → ℤ) (q : ℤ) : Prop :=
  ∀ A ⊆ M, (∀ x ∈ A, 0 ≤ w x) → q ≤ weight w A → q ≤ weight w A + weight w (negatives M w)

/-- The part of a set without negative weights. -/
def nonnegPart (w : α → ℤ) (A : Finset α) : Finset α := {x ∈ A | 0 ≤ w x}

theorem weight_nonnegPart_add (A : Finset α) :
    weight w (nonnegPart w A) + weight w (negatives A w) = weight w A := by
  have hsplit := Finset.sum_filter_add_sum_filter_not A (fun x => 0 ≤ w x) w
  simp only [not_le] at hsplit
  exact hsplit

theorem weight_negatives_nonpos (A : Finset α) : weight w (negatives A w) ≤ 0 :=
  Finset.sum_nonpos fun _ hx => (Finset.mem_filter.mp hx).2.le

/-- Fewer participants of negative weight weigh more. -/
theorem weight_negatives_anti {A : Finset α} (hA : A ⊆ M) :
    weight w (negatives M w) ≤ weight w (negatives A w) := by
  have hneg : ∑ x ∈ negatives A w, -w x ≤ ∑ x ∈ negatives M w, -w x := by
    refine Finset.sum_le_sum_of_subset_of_nonneg (Finset.filter_subset_filter _ hA) fun x hx _ => ?_
    have hlt := (Finset.mem_filter.mp hx).2
    omega
  rw [Finset.sum_neg_distrib, Finset.sum_neg_distrib] at hneg
  exact neg_le_neg_iff.mp hneg

theorem weight_nonnegPart_mono {A B : Finset α} (hAB : A ⊆ B) :
    weight w (nonnegPart w A) ≤ weight w (nonnegPart w B) :=
  Finset.sum_le_sum_of_subset_of_nonneg (Finset.filter_subset_filter _ hAB)
    fun _ hx _ => (Finset.mem_filter.mp hx).2

/-- Without negative weights there is nothing to absorb. -/
theorem absorbs_of_nonneg (hw : ∀ x ∈ M, 0 ≤ w x) (q : ℤ) : Absorbs M w q := by
  intro A _ _ hq
  have hnone : negatives M w = ∅ := by
    refine Finset.filter_eq_empty_iff.mpr fun x hx => ?_
    have hnonneg := hw x hx
    omega
  rw [hnone]
  exact hq.trans_eq (add_zero _).symm

/-- Reaching the threshold, a set does so by its part without negative weights, and still does
with all negative ones. -/
theorem Absorbs.le_nonnegPart {q : ℤ} (h : Absorbs M w q) {A : Finset α} (hA : A ⊆ M)
    (hq : q ≤ weight w A) :
    q ≤ weight w (nonnegPart w A) + weight w (negatives M w) := by
  have hsplit := weight_nonnegPart_add (w := w) A
  have hneg := weight_negatives_nonpos (w := w) A
  exact h _ ((Finset.filter_subset _ _).trans hA) (fun x hx => (Finset.mem_filter.mp hx).2)
    (by omega)

/-- **Supersets keep a threshold** exactly if it absorbs the negative weights. -/
theorem absorbs_iff [DecidableEq α] {q : ℤ} :
    Absorbs M w q ↔ ∀ A B, A ⊆ B → B ⊆ M → q ≤ weight w A → q ≤ weight w B := by
  constructor
  · intro h A B hAB hB hq
    have hA := h.le_nonnegPart (hAB.trans hB) hq
    have hmono := weight_nonnegPart_mono (w := w) hAB
    have hanti := weight_negatives_anti (w := w) hB
    have hsplit := weight_nonnegPart_add (w := w) B
    omega
  · intro h A hA hnonneg hq
    have hdisj : Disjoint A (negatives M w) := by
      refine Finset.disjoint_left.mpr fun x hx hneg => ?_
      have hpos := hnonneg x hx
      have hlt := (Finset.mem_filter.mp hneg).2
      omega
    have hunion := h A (A ∪ negatives M w) Finset.subset_union_left
      (Finset.union_subset hA (Finset.filter_subset _ _)) hq
    rwa [weight, Finset.sum_union hdisj] at hunion

/-- **Quorum intersection** for weights of either sign. -/
theorem IsStrong.lt_weight_inter_of_absorbs [DecidableEq α]
    (h : Absorbs M w ((weight w M + tolerance M w) / 2 + 1)) {A B : Finset α}
    (hA : IsStrong M w A) (hB : IsStrong M w B) : tolerance M w < weight w (A ∩ B) := by
  have hqA := h.le_nonnegPart hA.1 hA.2
  have hqB := h.le_nonnegPart hB.1 hB.2
  -- count the parts without negative weights, and charge all negative ones to the intersection
  have hparts : weight w (nonnegPart w (A ∪ B)) + weight w (nonnegPart w (A ∩ B)) =
      weight w (nonnegPart w A) + weight w (nonnegPart w B) := by
    rw [nonnegPart, nonnegPart, Finset.filter_union, Finset.filter_inter_distrib]
    exact Finset.sum_union_inter
  have hunion := weight_nonnegPart_mono (w := w) (Finset.union_subset hA.1 hB.1)
  have hM := weight_nonnegPart_add (w := w) M
  have hinter := weight_nonnegPart_add (w := w) (A ∩ B)
  have hneg := weight_negatives_anti (w := w) (Finset.inter_subset_left.trans hA.1 : A ∩ B ⊆ M)
  omega

end WeightedQuorum
