import Mir.Go.Basic

/-!
# Message buffers

`messagebuffer`: a backlog of messages of one sender, bounded by the sizes of the messages it
holds. The code keeps the current size in a field; here it is computed from the messages, so
the two cannot differ. Storing a message first evicts the oldest ones until the new one fits
(`size_evict_le`).
-/

namespace Mir

/-- `messagebuffer.Applicable`: what to do with a stored message. -/
inductive Applicable
  | past
  | current
  | future
  | invalid
  deriving DecidableEq, Repr

/-- `messagebuffer.MessageBuffer`, oldest message first. -/
structure MessageBuffer (M : Type) where
  capacity : ℕ
  messages : List M

namespace MessageBuffer

variable {M S : Type} (protoSize : M → ℕ)

/-- `MessageBuffer.size`: the bytes occupied by the stored messages. -/
def size (messages : List M) : ℕ := (messages.map protoSize).sum

/-- The eviction loop of `Store`, for a new message of size `msgSize`. -/
def evict (capacity msgSize : ℕ) : List M → List M
  | [] => []
  | m :: ms =>
    if capacity < size protoSize (m :: ms) + msgSize then evict capacity msgSize ms else m :: ms

/-- `Store`. -/
def store (mb : MessageBuffer M) (msg : M) : MessageBuffer M :=
  if mb.capacity < protoSize msg then mb
  else { mb with messages := evict protoSize mb.capacity (protoSize msg) mb.messages ++ [msg] }

/-- `NewBuffers`: one buffer for each node, with an equal share of the total capacity. -/
def newBuffers {K : Type} [DecidableEq K] (nodeIDs : List K) (totalCapacity : ℕ) :
    GoMap K (MessageBuffer M) :=
  GoMap.ofKeys nodeIDs fun _ => ⟨totalCapacity / nodeIDs.length, []⟩

/-- `Iterate`, over the stored messages: the state after applying the current ones in order,
and the messages that stay. -/
def iterate (filter : S → M → Applicable) (apply : S → M → Fallible S) :
    List M → S → Fallible (S × List M)
  | [], s => .ok (s, [])
  | m :: ms, s =>
    match filter s m with
    | .past => iterate filter apply ms s
    | .current => do
      let s' ← apply s m
      iterate filter apply ms s'
    | .future => do
      let (s', kept) ← iterate filter apply ms s
      return (s', m :: kept)
    | .invalid => iterate filter apply ms s

/-! ### Storing -/

theorem evict_suffix (capacity msgSize : ℕ) (ms : List M) :
    evict protoSize capacity msgSize ms <:+ ms := by
  induction ms with
  | nil => exact List.suffix_refl _
  | cons m ms ih =>
    rw [evict]
    split
    · exact ih.trans (List.suffix_cons m ms)
    · exact List.suffix_refl _

/-- Once a message fits into an empty buffer, eviction makes room for it. -/
theorem size_evict_le {capacity msgSize : ℕ} (hfit : msgSize ≤ capacity) (ms : List M) :
    size protoSize (evict protoSize capacity msgSize ms) + msgSize ≤ capacity := by
  induction ms with
  | nil => simpa [evict, size] using hfit
  | cons m ms ih =>
    rw [evict]
    split
    · exact ih
    · next hroom => exact Nat.le_of_not_lt hroom

/-- What a buffer holds after storing a message: the message or what it held before. -/
theorem mem_of_mem_store {mb : MessageBuffer M} {msg m : M}
    (h : m ∈ (mb.store protoSize msg).messages) : m = msg ∨ m ∈ mb.messages := by
  rw [store] at h
  split at h
  · exact Or.inr h
  · rcases List.mem_append.mp h with hold | hnew
    · exact Or.inr ((evict_suffix protoSize _ _ _).subset hold)
    · exact Or.inl (List.mem_singleton.mp hnew)

/-! ### Iterating -/

/-- Rule for iterating: an invariant of the state that applying any stored current message
keeps holds after the iteration, and the messages that stay were there before. -/
theorem iterate_induction {filter : S → M → Applicable} {apply : S → M → Fallible S}
    {P : S → Prop} {ms kept : List M} {s s' : S} (hP : P s)
    (happly : ∀ m ∈ ms, ∀ t t', P t → filter t m = .current → apply t m = .ok t' → P t')
    (h : iterate filter apply ms s = .ok (s', kept)) : P s' ∧ ∀ m ∈ kept, m ∈ ms := by
  induction ms generalizing s kept with
  | nil =>
    cases h
    exact ⟨hP, fun m hm => hm⟩
  | cons m ms ih =>
    have happly' : ∀ x ∈ ms, ∀ t t', P t → filter t x = .current → apply t x = .ok t' → P t' :=
      fun x hx => happly x (List.mem_cons_of_mem _ hx)
    have hdrop : ∀ {t : S} {k : List M}, P t → iterate filter apply ms t = .ok (s', k) →
        P s' ∧ ∀ x ∈ k, x ∈ m :: ms := by
      intro t k ht hit
      obtain ⟨hPs, hk⟩ := ih ht happly' hit
      exact ⟨hPs, fun x hx => List.mem_cons_of_mem _ (hk x hx)⟩
    rw [iterate] at h
    split at h
    · exact hdrop hP h
    · next hcur =>
      obtain ⟨t, ht, hrest⟩ := Fallible.bind_eq_ok.mp h
      exact hdrop (happly m List.mem_cons_self s t hP hcur ht) hrest
    · obtain ⟨⟨t, k⟩, hit, hret⟩ := Fallible.bind_eq_ok.mp h
      cases hret
      obtain ⟨hPs, hk⟩ := hdrop hP hit
      refine ⟨hPs, fun x hx => ?_⟩
      rcases List.mem_cons.mp hx with rfl | hx
      · exact List.mem_cons_self
      · exact hk x hx
    · exact hdrop hP h

end MessageBuffer

end Mir
