import Mathlib

/-!
# Writing to and reading from streams

A program that writes to a stream counts what it has written, one that reads from a stream counts what
it has read, and both may fail. `Writes p s` says that a program writes `s` and nothing else, `Reads p s a`
that a program which finds `s` at the front of its stream takes exactly that and returns `a`, whatever
follows. Both are closed under sequential composition and loops, so that a format is read back one part
after the other: `Reads.bind`, `Reads.many`.
-/

namespace Streaming

variable {σ ε α β : Type}

/-! ### Writing -/

/-- What has been written, and how much was counted. -/
structure Writer (σ : Type) where
  contents : List σ
  written : ℕ

/-- A program that writes to a stream. -/
abbrev Write (σ ε α : Type) := StateT (Writer σ) (Except ε) α

/-- Write a string, and count its symbols. -/
def write (s : List σ) : Write σ ε Unit := fun w => .ok ((), ⟨w.contents ++ s, w.written + s.length⟩)

/-- The program writes the string and counts it. -/
def Writes (p : Write σ ε Unit) (s : List σ) : Prop :=
  ∀ w, p w = .ok ((), ⟨w.contents ++ s, w.written + s.length⟩)

theorem writes_write (s : List σ) : Writes (ε := ε) (write s) s := fun _ => rfl

theorem Writes.seq {p q : Write σ ε Unit} {s t : List σ} (hp : Writes p s) (hq : Writes q t) :
    Writes (do p; q) (s ++ t) := by
  intro w
  change p w >>= _ = _
  rw [hp w]
  change q _ = _
  rw [hq, List.append_assoc, List.length_append, Nat.add_assoc]

/-- A loop writes the parts one after the other. -/
theorem Writes.forM {f : α → Write σ ε Unit} {encode : α → List σ} {l : List α}
    (h : ∀ a ∈ l, Writes (f a) (encode a)) : Writes (l.forM f) (l.flatMap encode) := by
  induction l with
  | nil =>
    intro w
    rw [List.flatMap_nil, List.append_nil]
    rfl
  | cons a l ih =>
    rw [List.flatMap_cons, List.forM_eq_forM, List.forM_cons, ← List.forM_eq_forM]
    exact (h a List.mem_cons_self).seq (ih fun b hb => h b (List.mem_cons_of_mem _ hb))

/-! ### Reading -/

/-- What is left to read, and how much was counted. -/
structure Reader (σ : Type) where
  rest : List σ
  read : ℕ

/-- A program that reads from a stream. -/
abbrev Read (σ ε α : Type) := StateT (Reader σ) (Except ε) α

/-- Read a given number of symbols, or fail. -/
def readFull (eof : ε) (n : ℕ) : Read σ ε (List σ) := fun r =>
  if n ≤ r.rest.length then .ok (r.rest.take n, ⟨r.rest.drop n, r.read + n⟩) else .error eof

/-- Fail. -/
def fail (e : ε) : Read σ ε α := fun _ => .error e

/-- Run a program a number of times. -/
def many (p : Read σ ε α) : ℕ → Read σ ε (List α)
  | 0 => pure []
  | n + 1 => do
    let a ← p
    let l ← many p n
    return a :: l

/-- The program reads the string from the front of any stream, counts it, and returns the value. -/
def Reads (p : Read σ ε α) (s : List σ) (a : α) : Prop :=
  ∀ rest read, p ⟨s ++ rest, read⟩ = .ok (a, ⟨rest, read + s.length⟩)

theorem reads_pure (a : α) : Reads (σ := σ) (ε := ε) (pure a) [] a := fun _ _ => rfl

theorem reads_readFull (eof : ε) {n : ℕ} {s : List σ} (h : s.length = n) :
    Reads (readFull eof n) s s := by
  intro rest read
  have hle : n ≤ (s ++ rest).length := by
    rw [List.length_append]
    omega
  rw [readFull, if_pos hle, List.take_left' h, List.drop_left' h, h]

theorem Reads.bind {p : Read σ ε α} {q : α → Read σ ε β} {s t : List σ} {a : α} {b : β}
    (hp : Reads p s a) (hq : Reads (q a) t b) : Reads (p >>= q) (s ++ t) b := by
  intro rest read
  change p _ >>= _ = _
  rw [List.append_assoc, hp]
  change q a _ = _
  rw [hq, List.length_append, Nat.add_assoc]

/-- The last program of a sequence that returns what was read without reading more. -/
theorem Reads.bind_pure {p : Read σ ε α} {f : α → β} {s : List σ} {a : α} (hp : Reads p s a) :
    Reads (do let x ← p; return f x) s (f a) := by
  have h := Reads.bind (q := fun x => pure (f x)) hp (reads_pure (f a))
  rwa [List.append_nil] at h

/-- **A loop** reads the parts one after the other. -/
theorem Reads.many {p : Read σ ε α} {encode : α → List σ} {l : List α}
    (h : ∀ a ∈ l, Reads p (encode a) a) : Reads (many p l.length) (l.flatMap encode) l := by
  induction l with
  | nil => exact reads_pure []
  | cons a l ih =>
    rw [List.flatMap_cons]
    exact (h a List.mem_cons_self).bind
      (ih fun b hb => h b (List.mem_cons_of_mem _ hb)).bind_pure

end Streaming
