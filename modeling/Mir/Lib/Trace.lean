import Mathlib

/-!
# Traces

`Each P l` says that every element of a list stands in its place: `P` holds of it and of the elements
before it. A list grows at its end, so the predicate is kept by appending elements that are in place
after what is already there (`Each.concat`), or anywhere (`Each.append`).
-/

namespace Mir

/-- What holds of the elements of a list and of a further one holds when it has been appended. -/
theorem forall_mem_concat {α : Type*} {P : α → Prop} {l : List α} {a : α} (h : ∀ x ∈ l, P x)
    (ha : P a) : ∀ x ∈ l ++ [a], P x :=
  List.forall_mem_append.mpr ⟨h, List.forall_mem_singleton.mpr ha⟩

namespace Tracing

variable {α : Type*} {P : List α → α → Prop} {l m : List α} {a : α}

/-- Every element of a trace satisfies `P` after the elements before it. -/
def Each (P : List α → α → Prop) (l : List α) : Prop :=
  ∀ pre a post, l = pre ++ a :: post → P pre a

theorem each_nil : Each P [] := by
  intro pre a post h
  simp at h

theorem each_append_iff :
    Each P (l ++ m) ↔ Each P l ∧ Each (fun pre => P (l ++ pre)) m := by
  constructor
  · intro h
    refine ⟨fun pre a post hl => h pre a (post ++ m) ?_, fun pre a post hm => h (l ++ pre) a post ?_⟩
    · rw [hl, List.append_assoc, List.cons_append]
    · rw [hm, List.append_assoc]
  · rintro ⟨hl, hm⟩ pre a post heq
    -- the element stands in one of the two parts
    rcases List.append_eq_append_iff.mp heq with ⟨as, rfl, has⟩ | ⟨bs, hbs, hcons⟩
    · exact hm as a post has
    · rcases List.append_eq_cons_iff.mp hcons.symm with ⟨rfl, hm'⟩ | ⟨bs', rfl, -⟩
      · have ha : P (l ++ []) a := hm [] a post hm'
        rwa [List.append_nil, hbs, List.append_nil] at ha
      · exact hl pre a bs' hbs

theorem Each.append (h : Each P l) (hm : ∀ a ∈ m, ∀ pre, P pre a) : Each P (l ++ m) := by
  refine each_append_iff.mpr ⟨h, fun pre a post heq => hm a ?_ _⟩
  rw [heq]
  exact List.mem_append_right _ List.mem_cons_self

theorem Each.concat (h : Each P l) (ha : P l a) : Each P (l ++ [a]) := by
  refine each_append_iff.mpr ⟨h, fun pre b post heq => ?_⟩
  rcases List.append_eq_singleton_iff.mp heq.symm with ⟨rfl, hcons⟩ | ⟨-, hcons⟩
  · obtain ⟨rfl, -⟩ := List.cons.inj hcons
    rwa [List.append_nil]
  · simp at hcons

end Tracing

end Mir
