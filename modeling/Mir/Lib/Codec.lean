import Mathlib.Data.Countable.Basic
import Mathlib.Data.List.Infix
import Mathlib.Logic.Encodable.Basic
import Mathlib.Tactic

/-!
# Codecs

A **codec** writes values as strings of symbols and reads them back. Its encoding is **prefix
free** when no encoding is the beginning of another one, so that an encoding can be found at the
front of a longer string (`PrefixFree.append_inj`). Every countable type has a prefix-free codec
(`exists_prefixFree_codec`), and a codec can be changed to read one chosen value from one symbol
(`Codec.reserve`).
-/

namespace Coding

universe u v

variable {σ : Type u} {α : Type v}

/-- Writing and reading values of type `α` as strings over `σ`. -/
structure Codec (σ : Type u) (α : Type v) where
  encode : α → List σ
  decode : List σ → Option α
  decode_encode : ∀ a, decode (encode a) = some a

/-- The same codec with the string `[x]` kept for one value; all others start with `y`. -/
def Codec.reserve [DecidableEq σ] [DecidableEq α] (c : Codec σ α) {x y : σ} (hxy : y ≠ x) (a : α) :
    Codec σ α where
  encode b := if b = a then [x] else y :: c.encode b
  decode
    | [] => none
    | s :: rest => if s = x then some a else c.decode rest
  decode_encode b := by
    by_cases hb : b = a
    · simp [hb]
    · simp [hb, hxy, c.decode_encode]

/-- No encoding is the beginning of another one. -/
def PrefixFree (encode : α → List σ) : Prop := ∀ a b, encode a <+: encode b → a = b

theorem PrefixFree.reserve [DecidableEq σ] [DecidableEq α] {c : Codec σ α} (h : PrefixFree c.encode)
    {x y : σ} (hxy : y ≠ x) (a : α) : PrefixFree (c.reserve hxy a).encode := by
  intro b b' hpre
  by_cases hb : b = a <;> by_cases hb' : b' = a <;>
    simp only [Codec.reserve, hb, hb', if_true, if_false, List.cons_prefix_cons] at hpre ⊢
  · exact absurd hpre.1.symm hxy
  · exact absurd hpre.1 hxy
  · exact h b b' hpre.2

/-- The encoding at the front of a string is determined by the string, and so is the rest. -/
theorem PrefixFree.append_inj {encode : α → List σ} (h : PrefixFree encode) {a b : α}
    {s t : List σ} (heq : encode a ++ s = encode b ++ t) : a = b ∧ s = t := by
  have hab : a = b := by
    rcases List.prefix_or_prefix_of_prefix (List.prefix_append (encode a) s)
      (heq ▸ List.prefix_append (encode b) t) with hpre | hpre
    · exact h a b hpre
    · exact (h b a hpre).symm
  subst hab
  exact ⟨rfl, List.append_cancel_left heq⟩

/-- Prefix-free encodings can be read from the front of a string. -/
theorem PrefixFree.exists_read {encode : α → List σ} (h : PrefixFree encode) :
    ∃ read : List σ → Option (α × List σ), ∀ a s, read (encode a ++ s) = some (a, s) := by
  classical
  refine ⟨fun t => if ht : ∃ r : α × List σ, encode r.1 ++ r.2 = t then some ht.choose else none,
    fun a s => ?_⟩
  have ht : ∃ r : α × List σ, encode r.1 ++ r.2 = encode a ++ s := ⟨(a, s), rfl⟩
  obtain ⟨ha, hs⟩ := h.append_inj ht.choose_spec
  exact (dif_pos ht).trans (congrArg some (Prod.ext ha hs))

/-- **Countable types have prefix-free codecs**: write the number of a value in unary. -/
theorem exists_prefixFree_codec [Countable α] {x y : σ} (hxy : x ≠ y) :
    ∃ c : Codec σ α, PrefixFree c.encode := by
  obtain ⟨f, hf⟩ := exists_injective_nat α
  refine ⟨⟨fun a => List.replicate (f a) x ++ [y],
    fun s => Function.partialInv f (s.length - 1), fun a => ?_⟩, fun a b hab => hf ?_⟩
  · rw [List.length_append, List.length_replicate, List.length_singleton, Nat.add_sub_cancel]
    exact Function.partialInv_left hf a
  · -- the terminator stands at the value's number
    have hlen := hab.length_le
    simp only [List.length_append, List.length_replicate, List.length_singleton] at hlen
    obtain ⟨t, ht⟩ := hab
    have hat : (List.replicate (f b) x ++ [y])[f a]? = some y := by
      refine (congrArg (fun l => l[f a]?) ht.symm).trans ?_
      simp
    by_contra hne
    have hlt : f a < f b := by omega
    rw [List.getElem?_append_left (by simpa using hlt)] at hat
    simp [hlt, hxy] at hat

end Coding
