import Mathlib.Data.List.Perm.Basic
import Mathlib.Data.List.Nodup
import Mathlib.Data.List.Sort
import Mathlib.Tactic

/-!
# Sorting by an order with ties

A sort that is not stable may leave tied elements in any order. An **arrangement** of a list is
any outcome: a permutation in which no element comes before a smaller one. Every arrangement
starts with a strictly sorted list that lies below everything else
(`Arrangement.eq_append_of_strict`). Around any element `a` it splits into the elements before it,
those tied with it, and those after it (`Arrangement.eq_append`), and any element tied with `a` may
come first among the tied ones (`Arrangement.moveFirst`).
-/

namespace Sorting

variable {α : Type*} {le : α → α → Bool} {s ids : List α}

/-- A permutation of `s` that is sorted by `le`. -/
structure Arrangement (le : α → α → Bool) (s ids : List α) : Prop where
  perm : ids.Perm s
  sorted : ids.Pairwise fun a b => le a b

/-- A total preorder: what sorting needs of a comparison. -/
structure TotalPreorder (le : α → α → Bool) : Prop where
  trans : ∀ a b c, le a b → le b c → le a c
  total : ∀ a b, le a b ∨ le b a

/-- `x` comes before `a` in every arrangement. -/
def before (le : α → α → Bool) (a x : α) : Bool := !le a x

/-- `x` and `a` may come in either order. -/
def tied (le : α → α → Bool) (a x : α) : Bool := le a x && le x a

/-- `x` comes after `a` in every arrangement. -/
def after (le : α → α → Bool) (a x : α) : Bool := !le x a

/-- A predicate that holds of everything before an element it holds of splits a list in two. -/
theorem filter_append_of_pairwise {p : α → Bool} {l : List α}
    (h : l.Pairwise fun x y => p y → p x) :
    l.filter p ++ l.filter (fun x => !p x) = l := by
  induction l with
  | nil => rfl
  | cons x l ih =>
    obtain ⟨hx, hl⟩ := List.pairwise_cons.mp h
    by_cases hp : p x = true
    · rw [List.filter_cons_of_pos hp, List.filter_cons_of_neg (by simp [hp]), List.cons_append,
        ih hl]
    · -- nothing after `x` satisfies `p`
      have hnone : l.filter p = [] := List.filter_eq_nil_iff.mpr fun y hy hpy => hp (hx y hy hpy)
      have hall : l.filter (fun x => !p x) = l := by
        have hsplit := ih hl
        rwa [hnone, List.nil_append] at hsplit
      rw [List.filter_cons_of_neg hp, List.filter_cons_of_pos (by simp [hp]), hnone, hall,
        List.nil_append]

variable (hle : TotalPreorder le)

include hle

theorem TotalPreorder.le_of_before {a x : α} (h : before le a x = true) : le x a = true := by
  rw [before, Bool.not_eq_true'] at h
  exact (hle.total a x).resolve_left (by simp [h])

theorem TotalPreorder.refl (a : α) : le a a = true :=
  (hle.total a a).elim id id

/-- An arrangement exists. -/
theorem exists_arrangement (s : List α) : ∃ ids, Arrangement le s ids := by
  have : Std.Total fun a b => (le a b : Prop) := ⟨hle.total⟩
  have : IsTrans α fun a b => (le a b : Prop) := ⟨hle.trans⟩
  exact ⟨_, List.perm_insertionSort (fun a b => (le a b : Prop)) s,
    List.pairwise_insertionSort _ s⟩

/-- **Arrangements start alike**: with any strictly sorted list below everything else. -/
theorem Arrangement.eq_append_of_strict [DecidableEq α] (h : Arrangement le s ids) (hnd : s.Nodup)
    {ps : List α} (hps : ps.Pairwise fun a b => before le b a) (hmem : ∀ a ∈ ps, a ∈ s)
    (hrest : ∀ a ∈ ps, ∀ b ∈ s, b ∉ ps → before le b a) :
    ids = ps ++ ids.filter fun x => !decide (x ∈ ps) := by
  have hsplit : ids.filter (fun x => decide (x ∈ ps)) ++
      ids.filter (fun x => !decide (x ∈ ps)) = ids := by
    refine filter_append_of_pairwise (h.sorted.imp_of_mem fun {x y} hx _ hxy hy => ?_)
    by_contra hno
    have hlt := hrest y (of_decide_eq_true hy) x (h.perm.mem_iff.mp hx) (by simpa using hno)
    simp [before, hxy] at hlt
  have hdistinct : ps.Nodup := hps.imp fun {a b} hab heq => by
    subst heq
    simp [before, hle.refl] at hab
  have hperm : (ids.filter fun x => decide (x ∈ ps)).Perm ps := by
    refine (List.perm_ext_iff_of_nodup ((h.perm.nodup_iff.mpr hnd).filter _) hdistinct).mpr ?_
    intro x
    rw [List.mem_filter, decide_eq_true_iff, h.perm.mem_iff]
    exact ⟨fun hx => hx.2, fun hx => ⟨hmem x hx, hx⟩⟩
  have hnotie : ∀ x ∈ ps, ∀ y ∈ ps, x ≠ y → ¬ (le x y = true ∧ le y x = true) := by
    have hpair : ps.Pairwise fun x y => ¬ (le x y = true ∧ le y x = true) :=
      hps.imp fun {x y} hxy hboth => by simp [before, hboth.2] at hxy
    have hsymm : Std.Symm fun x y => ¬ (le x y = true ∧ le y x = true) :=
      ⟨fun x y hxy hyx => hxy hyx.symm⟩
    exact fun x hx y hy hne => hpair.forall hx hy hne
  have hfilter : ids.filter (fun x => decide (x ∈ ps)) = ps := by
    refine List.Perm.eq_of_pairwise ?_ (h.sorted.filter _) (hps.imp hle.le_of_before) hperm
    intro x y hx hy hxy hyx
    by_contra hne
    exact hnotie x (hperm.mem_iff.mp hx) y hy hne ⟨hxy, hyx⟩
  rw [hfilter] at hsplit
  exact hsplit.symm

/-- **The elements before `a`, those tied with it, and those after it.** -/
theorem Arrangement.eq_append (h : Arrangement le s ids) (a : α) :
    ids.filter (before le a) ++ (ids.filter (tied le a) ++ ids.filter (after le a)) = ids := by
  have hbefore : ids.Pairwise fun x y => before le a y → before le a x := by
    refine h.sorted.imp fun {x y} hxy hy => ?_
    rw [before, Bool.not_eq_true'] at hy ⊢
    by_contra hx
    exact absurd (hle.trans a x y (by simpa using hx) hxy) (by simp [hy])
  have hrest : (ids.filter fun x => !before le a x).Pairwise
      fun x y => (!after le a y) → (!after le a x) := by
    refine (h.sorted.filter _).imp fun {x y} hxy hy => ?_
    simp only [after, Bool.not_not] at hy ⊢
    exact hle.trans x y a hxy hy
  have htied : ids.filter (tied le a) =
      (ids.filter fun x => !before le a x).filter fun x => !after le a x := by
    rw [List.filter_filter]
    congr 1
    funext x
    simp [tied, before, after, Bool.and_comm]
  have hafter : ids.filter (after le a) =
      (ids.filter fun x => !before le a x).filter fun x => !!after le a x := by
    rw [List.filter_filter]
    refine List.filter_congr fun x _ => ?_
    cases hx : le x a with
    | true => simp [after, hx]
    | false =>
      have hax : le a x = true := (hle.total a x).resolve_right (by simp [hx])
      simp [after, before, hx, hax]
  rw [htied, hafter, filter_append_of_pairwise hrest, filter_append_of_pairwise hbefore]

/-- **Any of the tied elements may come first** among them. -/
theorem Arrangement.moveFirst [DecidableEq α] (h : Arrangement le s ids) {a d : α}
    (hd : d ∈ ids.filter (tied le a)) :
    Arrangement le s (ids.filter (before le a) ++
      (d :: (ids.filter (tied le a)).erase d ++ ids.filter (after le a))) := by
  have hsorted := h.sorted
  rw [← h.eq_append hle a] at hsorted
  obtain ⟨hbefore, hrest, hcross⟩ := List.pairwise_append.mp hsorted
  obtain ⟨htied, hafter, hcross'⟩ := List.pairwise_append.mp hrest
  have hmem : ∀ x, x ∈ d :: (ids.filter (tied le a)).erase d ↔ x ∈ ids.filter (tied le a) :=
    fun x => (List.perm_cons_erase hd).symm.mem_iff
  have hclass : ∀ x ∈ ids.filter (tied le a), le d x = true := by
    intro x hx
    rw [List.mem_filter, tied, Bool.and_eq_true] at hx hd
    exact hle.trans d a x hd.2.2 hx.2.1
  refine ⟨?_, ?_⟩
  · refine (List.Perm.append_left _ ((List.perm_cons_erase hd).symm.append_right _)).trans ?_
    rw [h.eq_append hle a]
    exact h.perm
  · refine List.pairwise_append.mpr ⟨hbefore, List.pairwise_append.mpr ⟨?_, hafter, ?_⟩, ?_⟩
    · refine List.pairwise_cons.mpr ⟨fun x hx => hclass x (List.mem_of_mem_erase hx), ?_⟩
      exact htied.sublist List.erase_sublist
    · exact fun x hx y hy => hcross' x ((hmem x).mp hx) y hy
    · intro x hx y hy
      refine hcross x hx y ?_
      rw [List.mem_append] at hy ⊢
      exact hy.imp_left (hmem y).mp

/-- **Where an element is tied with another, arrangements differ** at or before its position. -/
theorem Arrangement.exists_differing [DecidableEq α] (h : Arrangement le s ids) {a b : α} {n : ℕ}
    (ha : ids[n]? = some a) (hb : b ∈ ids) (hne : a ≠ b) (htied : tied le a b) :
    ∃ ids', Arrangement le s ids' ∧ ∃ i ≤ n, ids[i]? ≠ ids'[i]? := by
  have hmemA : a ∈ ids.filter (tied le a) :=
    List.mem_filter.mpr ⟨List.mem_of_getElem? ha, by simp [tied, hle.refl]⟩
  have hmemB : b ∈ ids.filter (tied le a) := List.mem_filter.mpr ⟨hb, htied⟩
  have hsplit := h.eq_append hle a
  -- the first of the tied elements gives way to one of `a` and `b`
  obtain ⟨c, rest, hclass⟩ := List.exists_cons_of_ne_nil (List.ne_nil_of_mem hmemA)
  obtain ⟨d, hd, hdc⟩ : ∃ d ∈ ids.filter (tied le a), d ≠ c := by
    by_cases hac : a = c
    · exact ⟨b, hmemB, fun hbc => hne (hac.trans hbc.symm)⟩
    · exact ⟨a, hmemA, hac⟩
  refine ⟨_, h.moveFirst hle hd, (ids.filter (before le a)).length, ?_, ?_⟩
  · by_contra hlt
    rw [← hsplit, List.getElem?_append_left (by omega)] at ha
    have hbefore := (List.mem_filter.mp (List.mem_of_getElem? ha)).2
    simp [before, hle.refl] at hbefore
  · have hfirst := congrArg (fun l => l[(ids.filter (before le a)).length]?) hsplit
    rw [List.getElem?_append_right le_rfl, hclass] at hfirst
    rw [← hfirst, List.getElem?_append_right le_rfl]
    simpa using hdc.symm

end Sorting
