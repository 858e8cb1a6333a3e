import Mathlib.Data.List.Basic

/-!
# Loops that may fail

A loop over a list whose body may end in an error is `List.foldlM` in `Except`. The two rules here
take an invariant that is indexed by the elements the loop has already visited: one for a loop
that completed, one that shows that a loop completes. A loop that counts is `iterate`; its rule takes
an invariant that is indexed by the iterations that are left. A system is executed on a list of inputs
by a loop in `Option` (`exists_of_steps`).
-/

namespace FallibleLoop

variable {α β ε : Type} {f : β → α → Except ε β} {I : List α → β → Prop}

/-- Peeling a sequential composition that completed. -/
theorem bind_ok_iff {x : Except ε α} {g : α → Except ε β} {b : β} :
    x >>= g = .ok b ↔ ∃ a, x = .ok a ∧ g a = .ok b := by
  cases x with
  | error e => simp [bind, Except.bind]
  | ok a => simp [bind, Except.bind]

/-- The rules for the rest of a loop, from the visited elements on. -/
theorem foldlM_induction_from {visited l : List α} {b b' : β} (h0 : I visited b)
    (hstep : ∀ xs x ys, visited ++ l = xs ++ x :: ys → ∀ s s', I xs s → f s x = .ok s' →
      I (xs ++ [x]) s') (h : l.foldlM f b = .ok b') : I (visited ++ l) b' := by
  induction l generalizing visited b with
  | nil =>
    cases h
    rw [List.append_nil]
    exact h0
  | cons a l ih =>
    rw [List.foldlM_cons] at h
    cases hb : f b a with
    | error e =>
      rw [hb] at h
      cases h
    | ok b₁ =>
      rw [hb] at h
      have h₁ : I (visited ++ [a]) b₁ := hstep visited a l rfl b b₁ h0 hb
      have happ : visited ++ a :: l = visited ++ [a] ++ l := by simp
      rw [happ]
      refine ih h₁ ?_ h
      rw [← happ]
      exact hstep

/-- **A loop that completed** has established its invariant for all elements, if the body keeps
it from one element to the next. -/
theorem foldlM_induction {l : List α} {b b' : β} (h0 : I [] b)
    (hstep : ∀ xs x ys, l = xs ++ x :: ys → ∀ s s', I xs s → f s x = .ok s' → I (xs ++ [x]) s')
    (h : l.foldlM f b = .ok b') : I l b' :=
  foldlM_induction_from h0 hstep h

section Completion

variable {m : Type → Type} [Monad m] [LawfulMonad m] {f : β → α → m β}

theorem foldlM_completes_from {visited l : List α} {b : β} (h0 : I visited b)
    (hstep : ∀ xs x ys, visited ++ l = xs ++ x :: ys → ∀ s, I xs s →
      ∃ s', f s x = pure s' ∧ I (xs ++ [x]) s') :
    ∃ b', l.foldlM f b = pure b' ∧ I (visited ++ l) b' := by
  induction l generalizing visited b with
  | nil =>
    refine ⟨b, rfl, ?_⟩
    rw [List.append_nil]
    exact h0
  | cons a l ih =>
    obtain ⟨b₁, hb, h₁⟩ := hstep visited a l rfl b h0
    have happ : visited ++ a :: l = visited ++ [a] ++ l := by simp
    rw [happ] at hstep ⊢
    obtain ⟨b', hfold, hI⟩ := ih h₁ hstep
    refine ⟨b', ?_, hI⟩
    rw [List.foldlM_cons, hb, pure_bind]
    exact hfold

/-- **A loop completes**, with its invariant, if every iteration does, whichever way its body may
fail. -/
theorem foldlM_completes {l : List α} {b : β} (h0 : I [] b)
    (hstep : ∀ xs x ys, l = xs ++ x :: ys → ∀ s, I xs s → ∃ s', f s x = pure s' ∧ I (xs ++ [x]) s') :
    ∃ b', l.foldlM f b = pure b' ∧ I l b' :=
  foldlM_completes_from h0 hstep

end Completion

/-- What a loop that completed has produced comes from one of its elements. -/
theorem exists_of_mem_mapM {f : α → Except ε β} {l : List α} {bs : List β}
    (h : l.mapM f = .ok bs) {b : β} (hb : b ∈ bs) : ∃ a ∈ l, f a = .ok b := by
  induction l generalizing bs with
  | nil =>
    cases h
    cases hb
  | cons a l ih =>
    rw [List.mapM_cons] at h
    obtain ⟨b₁, hb₁, h⟩ := bind_ok_iff.mp h
    obtain ⟨bs₁, hbs₁, h⟩ := bind_ok_iff.mp h
    cases h
    rcases List.mem_cons.mp hb with rfl | hmem
    · exact ⟨a, List.mem_cons_self, hb₁⟩
    · obtain ⟨a', ha', hf⟩ := ih hbs₁ hmem
      exact ⟨a', List.mem_cons_of_mem _ ha', hf⟩

/-- A given number of iterations of a loop. -/
def iterate (body : β → Except ε β) : ℕ → β → Except ε β
  | 0, b => .ok b
  | n + 1, b => body b >>= iterate body n

/-- **A counting loop completes**, if every iteration does. The invariant is indexed by the number of
iterations that are left. -/
theorem iterate_completes {body : β → Except ε β} {I : ℕ → β → Prop}
    (hstep : ∀ k s, I (k + 1) s → ∃ s', body s = .ok s' ∧ I k s') {n : ℕ} {b : β} (h : I n b) :
    ∃ b', iterate body n b = .ok b' ∧ I 0 b' := by
  induction n generalizing b with
  | zero => exact ⟨b, rfl, h⟩
  | succ n ih =>
    obtain ⟨b₁, hb, h₁⟩ := hstep n b h
    obtain ⟨b', hiterate, hI⟩ := ih h₁
    refine ⟨b', ?_, hI⟩
    rw [iterate, hb]
    exact hiterate

/-! ### Executing steps -/

/-- A step that is taken if a condition holds and a computation completes. -/
def attempt (p : Prop) [Decidable p] (x : Except ε α) (next : α → β) : Option β :=
  if p then x.toOption.map next else none

theorem attempt_eq_some {p : Prop} [Decidable p] {x : Except ε α} {next : α → β} {b : β} :
    attempt p x next = some b ↔ p ∧ ∃ a, x = .ok a ∧ next a = b := by
  rw [attempt]
  cases x with
  | error e => simp [Except.toOption]
  | ok a => simp [Except.toOption]

/-- The result of a computation, if it passes a test. -/
def checked (x : Except ε α) (Q : α → Prop) [DecidablePred Q] : Option α :=
  x.toOption.filter fun a => decide (Q a)

theorem checked_eq_some {x : Except ε α} {Q : α → Prop} [DecidablePred Q] {a : α} :
    checked x Q = some a ↔ x = .ok a ∧ Q a := by
  cases x with
  | error e => simp [checked, Except.toOption]
  | ok b =>
    simp only [checked, Except.toOption, Option.filter_eq_some_iff, Option.some.injEq,
      decide_eq_true_eq, Except.ok.injEq]

theorem exists_ok_of_any {x : Except ε α} {Q : α → Prop} [DecidablePred Q]
    (h : x.toOption.any (fun a => Q a) = true) : ∃ a, x = .ok a ∧ Q a := by
  cases x with
  | ok a => exact ⟨a, rfl, of_decide_eq_true h⟩
  | error e => cases h

theorem exists_of_any {o : Option α} {Q : α → Prop} [DecidablePred Q]
    (h : o.any (fun a => Q a) = true) : ∃ a, o = some a ∧ Q a := by
  cases o with
  | some a => exact ⟨a, rfl, of_decide_eq_true h⟩
  | none => cases h

/-- **What a sequence of steps leads to** satisfies an invariant that is indexed by the inputs of the
steps taken. -/
theorem steps_induction {step : β → α → Option β} (past : List α) {l : List α} {b b' : β}
    (hb : I past b)
    (hstep : ∀ {past b a b'}, a ∈ l → I past b → step b a = some b' → I (past ++ [a]) b')
    (h : l.foldlM step b = some b') : I (past ++ l) b' := by
  induction l generalizing past b with
  | nil =>
    cases h
    rwa [List.append_nil]
  | cons a l ih =>
    rw [List.foldlM_cons] at h
    obtain ⟨b₁, hb₁, h⟩ := Option.bind_eq_some_iff.mp h
    rw [List.append_cons]
    exact ih _ (hstep List.mem_cons_self hb hb₁) (fun ha => hstep (List.mem_cons_of_mem _ ha)) h

/-- **What a test finds after a sequence of steps** has every property that the steps keep. -/
theorem exists_of_steps {step : β → α → Option β} {P Q : β → Prop} [DecidablePred Q] {l : List α}
    {b : β} (h : (l.foldlM step b).any (fun b => Q b) = true) (hb : P b)
    (hstep : ∀ {b a b'}, a ∈ l → P b → step b a = some b' → P b') : ∃ b', P b' ∧ Q b' := by
  obtain ⟨b', hb', hQ⟩ := exists_of_any h
  exact ⟨b', steps_induction (I := fun _ => P) [] hb hstep hb', hQ⟩

end FallibleLoop
