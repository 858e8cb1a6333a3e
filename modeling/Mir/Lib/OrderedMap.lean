import Mathlib.Data.List.Nodup

/-!
# Insertion-ordered maps

Maps as lists of keys with their values, in the order in which the keys were added. Each operation gives
the new map and the entries that it has added or removed. A predicate is asked about one entry after
the other, and may depend on what it has been asked about.
-/

namespace OrderedMap

variable {K V : Type} [DecidableEq K]

/-- Add a key, unless it is present. -/
def appendStep (acc : List (K × V) × List (K × V)) (kv : K × V) : List (K × V) × List (K × V) :=
  if kv.1 ∈ acc.1.map Prod.fst then acc else (acc.1 ++ [kv], acc.2 ++ [kv])

/-- Add the keys that are not present. -/
def append (m items : List (K × V)) : List (K × V) × List (K × V) :=
  items.foldl appendStep (m, [])

/-- Delete a key, if it is present. -/
def removeStep (acc : List (K × V) × List (K × V)) (key : K) : List (K × V) × List (K × V) :=
  (acc.1.filter (·.1 ≠ key), acc.2 ++ (acc.1.find? (·.1 = key)).toList)

/-- Delete the keys that are present. -/
def remove (m : List (K × V)) (keys : List K) : List (K × V) × List (K × V) :=
  keys.foldl removeStep (m, [])

omit [DecidableEq K] in
/-- Delete the entries that a predicate selects. -/
def removeSelected (predicate : List (K × V) → K → V → Bool) :
    List (K × V) → List (K × V) → List (K × V) × List (K × V)
  | _, [] => ([], [])
  | asked, kv :: m =>
    let rest := removeSelected predicate (asked ++ [kv]) m
    if predicate asked kv.1 kv.2 then (rest.1, kv :: rest.2) else (kv :: rest.1, rest.2)

omit [DecidableEq K] in
/-- The first entries, up to one that a predicate rejects. -/
def takeWhile (predicate : List (K × V) → K → V → Bool) :
    List (K × V) → List (K × V) → List (K × V)
  | _, [] => []
  | asked, kv :: m =>
    if predicate asked kv.1 kv.2 then kv :: takeWhile predicate (asked ++ [kv]) m else []

variable {m front tail removed : List (K × V)} {kv : K × V} {key : K}

/-- What is added is new and comes last, and every given key is present afterwards. -/
theorem foldl_appendStep (m acc items : List (K × V)) : ∃ added,
    items.foldl appendStep (m, acc) = (m ++ added, acc ++ added) ∧ added.Sublist items ∧
      (∀ e ∈ added, e.1 ∉ m.map Prod.fst) ∧ ∀ e ∈ items, e.1 ∈ (m ++ added).map Prod.fst := by
  induction items generalizing m acc with
  | nil => exact ⟨[], by simp, List.Sublist.refl _, nofun, nofun⟩
  | cons kv items ih =>
    rw [List.foldl_cons, appendStep]
    by_cases hkv : kv.1 ∈ m.map Prod.fst
    · obtain ⟨added, heq, hsub, hnew, hall⟩ := ih m acc
      rw [if_pos hkv]
      refine ⟨added, heq, hsub.cons kv, hnew, List.forall_mem_cons.mpr ⟨?_, hall⟩⟩
      rw [List.map_append]
      exact List.mem_append_left _ hkv
    · obtain ⟨added, heq, hsub, hnew, hall⟩ := ih (m ++ [kv]) (acc ++ [kv])
      rw [if_neg hkv, heq]
      simp only [List.append_assoc, List.singleton_append, List.map_append, List.mem_append,
        not_or] at hnew hall ⊢
      exact ⟨kv :: added, rfl, hsub.cons_cons kv,
        List.forall_mem_cons.mpr ⟨hkv, fun e he => (hnew e he).1⟩,
        List.forall_mem_cons.mpr ⟨.inr List.mem_cons_self, hall⟩⟩

theorem removeStep_of_mem (hnodup : (m.map Prod.fst).Nodup) (hm : m = front ++ kv :: tail) :
    removeStep (m, removed) kv.1 = (front ++ tail, removed ++ [kv]) := by
  subst hm
  rw [List.map_append, List.map_cons, List.nodup_middle, List.nodup_cons, ← List.map_append] at hnodup
  have hne : ∀ x ∈ front ++ tail, x.1 ≠ kv.1 := fun x hx heq =>
    hnodup.1 (heq ▸ List.mem_map_of_mem hx)
  obtain ⟨hfront, htail⟩ := List.forall_mem_append.mp hne
  rw [removeStep, List.find?_append, List.find?_eq_none.mpr (by simpa using hfront),
    List.find?_cons_of_pos (by simp), List.filter_append, List.filter_cons_of_neg (by simp),
    ← List.filter_append, List.filter_eq_self.mpr (by simpa using hne)]
  rfl

theorem removeStep_of_notMem (h : key ∉ m.map Prod.fst) :
    removeStep (m, removed) key = (m, removed) := by
  have hne : ∀ x ∈ m, x.1 ≠ key := fun x hx heq => h (heq ▸ List.mem_map_of_mem hx)
  rw [removeStep, List.find?_eq_none.mpr (by simpa using hne),
    List.filter_eq_self.mpr (by simpa using hne)]
  exact Prod.ext rfl (List.append_nil _)

omit [DecidableEq K] in
/-- A predicate on the entries selects those that satisfy it. -/
theorem removeSelected_eq_filter (predicate : K → V → Bool) (asked m : List (K × V)) :
    removeSelected (fun _ => predicate) asked m =
      (m.filter fun e => !predicate e.1 e.2, m.filter fun e => predicate e.1 e.2) := by
  induction m generalizing asked with
  | nil => rfl
  | cons kv m ih => cases hkv : predicate kv.1 kv.2 <;> simp [removeSelected, ih, hkv]

end OrderedMap
