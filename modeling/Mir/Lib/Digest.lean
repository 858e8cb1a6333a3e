import Mathlib

/-!
# Digests

A hash function with digests of one length, and a set of inputs on which it has no collisions. (There
is no such function without collisions on all inputs, so the set matters.) Digests of one length can be
concatenated without loss, so a hash of concatenated digests determines the hashed inputs:
`CollisionFree.eq_of_hash_digests`.
-/

namespace Mir.Digests

variable {σ : Type*} {n : ℕ} {hash : List σ → List σ} {H : Set (List σ)}

/-- Digests have length `n`, and no two inputs in `H` have the same digest. -/
structure CollisionFree (n : ℕ) (hash : List σ → List σ) (H : Set (List σ)) : Prop where
  pos : 0 < n
  length : ∀ input, (hash input).length = n
  injOn : Set.InjOn hash H

/-- Lists of chunks of one length are determined by their concatenation. -/
theorem flatten_injective_of_length (hn : 0 < n) {l l' : List (List σ)}
    (hl : ∀ chunk ∈ l, chunk.length = n) (hl' : ∀ chunk ∈ l', chunk.length = n)
    (h : l.flatten = l'.flatten) : l = l' := by
  induction l generalizing l' with
  | nil =>
    cases l' with
    | nil => rfl
    | cons c l' =>
      have hlen := congrArg List.length h
      simp only [List.flatten_nil, List.length_nil, List.flatten_cons, List.length_append,
        hl' c List.mem_cons_self] at hlen
      omega
  | cons c l ih =>
    cases l' with
    | nil =>
      have hlen := congrArg List.length h
      simp only [List.flatten_nil, List.length_nil, List.flatten_cons, List.length_append,
        hl c List.mem_cons_self] at hlen
      omega
    | cons c' l' =>
      have hc : c.length = c'.length :=
        (hl c List.mem_cons_self).trans (hl' c' List.mem_cons_self).symm
      obtain ⟨rfl, hrest⟩ := List.append_inj h hc
      rw [ih (fun d hd => hl d (List.mem_cons_of_mem _ hd))
        (fun d hd => hl' d (List.mem_cons_of_mem _ hd)) hrest]

/-- Lists of inputs without collisions are determined by their digests. -/
theorem eq_of_map_eq (hinj : Set.InjOn hash H) {xs ys : List (List σ)} (hxs : ∀ x ∈ xs, x ∈ H)
    (hys : ∀ y ∈ ys, y ∈ H) (h : xs.map hash = ys.map hash) : xs = ys := by
  induction xs generalizing ys with
  | nil => exact (List.map_eq_nil_iff.mp h.symm).symm
  | cons x xs ih =>
    obtain ⟨y, ys, rfl, hhead, htail⟩ := List.map_eq_cons_iff.mp h.symm
    obtain ⟨hx, hxs⟩ := List.forall_mem_cons.mp hxs
    obtain ⟨hy, hys⟩ := List.forall_mem_cons.mp hys
    rw [hinj hx hy hhead.symm, ih hxs hys htail.symm]

/-- **A hash of concatenated digests determines the inputs** of the digests. -/
theorem CollisionFree.eq_of_hash_digests (h : CollisionFree n hash H) {xs ys : List (List σ)}
    (hxs : ∀ x ∈ xs, x ∈ H) (hys : ∀ y ∈ ys, y ∈ H) (hx : (xs.map hash).flatten ∈ H)
    (hy : (ys.map hash).flatten ∈ H)
    (heq : hash (xs.map hash).flatten = hash (ys.map hash).flatten) : xs = ys := by
  have hlength : ∀ zs : List (List σ), ∀ d ∈ zs.map hash, d.length = n := by
    intro zs d hd
    obtain ⟨z, -, rfl⟩ := List.mem_map.mp hd
    exact h.length z
  have hdigests : xs.map hash = ys.map hash :=
    flatten_injective_of_length h.pos (hlength xs) (hlength ys) (h.injOn hx hy heq)
  exact eq_of_map_eq h.injOn hxs hys hdigests

end Mir.Digests
