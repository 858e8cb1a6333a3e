import Mir.Lib.Fold
import Mir.Lib.Trace

/-!
# Go values: bytes, strings, slices, maps and faults

The vocabulary of the Go sources, fixed once for the whole development.

* A Go `string` is a byte sequence compared bytewise, so `GoString` is `List UInt8` and node
  identifiers are `GoString`s.
* A `[]byte` whose `nil`-ness the code tests is a `ByteSlice`; where the code reads only the
  contents it is plain `Bytes`. `ByteSlice.bytes` forgets the difference, and two slices that
  `bytes.Equal` identifies have the same `bytes`.
* A Go map is an `AList`: finite, with distinct keys. Iterating over a map follows an order
  that the language leaves open; where the outcome depends on it, the model takes the order
  as an argument.
* A handler either completes or ends in a `Fault`: a run-time panic, or an error that it
  returns and that stops the node.
-/

namespace Mir

/-! ### Bytes, strings and slices -/

/-- The contents of a byte slice. -/
abbrev Bytes := List UInt8

/-- A Go string: a byte sequence with the lexicographic order. -/
abbrev GoString := List UInt8

instance : LawfulBEq GoString := List.instLawfulBEq

/-- The string is valid UTF-8. -/
def GoString.ValidUTF8 (s : GoString) : Prop := ByteArray.IsValidUTF8 ⟨s.toArray⟩

instance (s : GoString) : Decidable s.ValidUTF8 :=
  inferInstanceAs (Decidable (ByteArray.IsValidUTF8 _))

/-- A byte slice that may be `nil`. -/
abbrev ByteSlice := Option Bytes

/-- The contents of a slice; a `nil` slice reads as the empty one. -/
def ByteSlice.bytes (s : ByteSlice) : Bytes := s.getD []

@[simp] theorem ByteSlice.bytes_some (b : Bytes) : ByteSlice.bytes (some b) = b := rfl

@[simp] theorem ByteSlice.bytes_none : ByteSlice.bytes none = [] := rfl

/-- `serializing.Uint64ToBytes`: the eight little-endian bytes of a 64-bit number. -/
def uint64ToBytes (n : UInt64) : Bytes :=
  (List.range 8).map fun i => UInt8.ofNat (n.toNat / 256 ^ i)

@[simp] theorem length_uint64ToBytes (n : UInt64) : (uint64ToBytes n).length = 8 := by
  simp [uint64ToBytes]

/-- The little-endian encoding is injective: the eight base-256 digits determine a number
below `2 ^ 64`. -/
theorem uint64ToBytes_injective : Function.Injective uint64ToBytes := by
  intro n m h
  have hdigit : ∀ i < 8, n.toNat / 256 ^ i % 256 = m.toNat / 256 ^ i % 256 := by
    intro i hi
    have hget := congrArg (fun l : Bytes => l[i]?.map UInt8.toNat) h
    simpa [uint64ToBytes, hi] using hget
  have h0 := hdigit 0 (by decide)
  have h1 := hdigit 1 (by decide)
  have h2 := hdigit 2 (by decide)
  have h3 := hdigit 3 (by decide)
  have h4 := hdigit 4 (by decide)
  have h5 := hdigit 5 (by decide)
  have h6 := hdigit 6 (by decide)
  have h7 := hdigit 7 (by decide)
  have hn := n.toNat_lt
  have hm := m.toNat_lt
  norm_num at h0 h1 h2 h3 h4 h5 h6 h7
  exact UInt64.toNat_inj.mp (by omega)

/-! ### Faults -/

/-- The run-time panics the modelled code can raise. -/
inductive Panic
  | nilDereference
  | indexOutOfRange
  | divideByZero
  | invalidVoteWeight
  | nilInterface
  deriving DecidableEq, Repr

/-- The errors the modelled handlers return; any of them stops the node. -/
inductive HandlerError
  | olderView
  | unusedDigests
  | invalidLeaderPolicy
  | leaderNotInMembership
  | alreadyHaveMembership
  | invalidCertificate
  | invalidCommonCheckpoint
  deriving DecidableEq, Repr

/-- How a handler fails to complete. -/
inductive Fault
  | panic (p : Panic)
  | error (e : HandlerError)
  deriving DecidableEq, Repr

/-- A computation that completes with a value or ends in a fault. -/
abbrev Fallible (α : Type) := Except Fault α

/-- Dereferencing a pointer that may be `nil`. -/
def deref {α : Type} : Option α → Fallible α
  | some a => .ok a
  | none => .error (.panic .nilDereference)

/-- Indexing a slice. -/
def index {α : Type} (l : List α) (i : ℕ) : Fallible α :=
  match l[i]? with
  | some a => .ok a
  | none => .error (.panic .indexOutOfRange)

theorem Fallible.bind_eq_ok {α β : Type} {x : Fallible α} {f : α → Fallible β} {b : β} :
    x >>= f = .ok b ↔ ∃ a, x = .ok a ∧ f a = .ok b := FallibleLoop.bind_ok_iff

@[simp] theorem Fallible.ok_bind {α β : Type} (a : α) (f : α → Fallible β) :
    ((.ok a : Fallible α) >>= f) = f a := rfl

@[simp] theorem Fallible.error_bind {α β : Type} (e : Fault) (f : α → Fallible β) :
    ((.error e : Fallible α) >>= f) = .error e := rfl

@[simp] theorem Fallible.pure_eq_ok {α : Type} (a : α) : (pure a : Fallible α) = .ok a := rfl

/-- The computation completes. -/
def Fallible.Completes {α : Type} (x : Fallible α) : Prop := ∃ a, x = .ok a

@[simp] theorem Fallible.completes_ok {α : Type} (a : α) :
    Fallible.Completes (.ok a : Fallible α) := ⟨a, rfl⟩

theorem Fallible.completes_bind_iff {α β : Type} {x : Fallible α} {f : α → Fallible β} :
    Fallible.Completes (x >>= f) ↔ ∃ a, x = .ok a ∧ Fallible.Completes (f a) := by
  simp only [Fallible.Completes, Fallible.bind_eq_ok]
  constructor
  · rintro ⟨b, a, ha, hb⟩
    exact ⟨a, ha, b, hb⟩
  · rintro ⟨a, ha, b, hb⟩
    exact ⟨b, a, ha, hb⟩

/-- If the second part always completes, the composition completes if the first does. -/
theorem Fallible.completes_bind_iff_left {α β : Type} {x : Fallible α} {f : α → Fallible β}
    (hf : ∀ a, Fallible.Completes (f a)) :
    Fallible.Completes (x >>= f) ↔ Fallible.Completes x := by
  rw [Fallible.completes_bind_iff]
  exact exists_congr fun a => and_iff_left (hf a)

@[simp] theorem deref_eq_ok {α : Type} {x : Option α} {a : α} : deref x = .ok a ↔ x = some a := by
  cases x <;> simp [deref]

@[simp] theorem index_eq_ok {α : Type} {l : List α} {i : ℕ} {a : α} :
    index l i = .ok a ↔ l[i]? = some a := by
  unfold index
  split <;> simp_all

/-! ### Maps -/

/-- A Go map. -/
abbrev GoMap (K V : Type) := AList fun _ : K => V

namespace GoMap

variable {K V : Type}

-- Mathlib's instance for `AList` is built by rewriting, and the kernel cannot evaluate it.
instance [DecidableEq K] [DecidableEq V] : DecidableEq (GoMap K V) := fun m m' =>
  decidable_of_iff (m.entries = m'.entries) AList.ext_iff.symm

/-- `maputil.GetSortedKeys`, for the key order `le`. -/
def sortedKeys (le : K → K → Bool) (m : GoMap K V) : List K :=
  m.keys.insertionSort fun a b => le a b

theorem sortedKeys_perm (le : K → K → Bool) (m : GoMap K V) : (sortedKeys le m).Perm m.keys :=
  List.perm_insertionSort _ _

@[simp] theorem mem_sortedKeys {le : K → K → Bool} {m : GoMap K V} {k : K} :
    k ∈ sortedKeys le m ↔ k ∈ m.keys :=
  (sortedKeys_perm le m).mem_iff

theorem sortedKeys_nodup (le : K → K → Bool) (m : GoMap K V) : (sortedKeys le m).Nodup :=
  (sortedKeys_perm le m).nodup_iff.mpr m.keys_nodup

variable [DecidableEq K]

/-- Keys with a value are exactly those at which a lookup succeeds. -/
theorem mem_keys_iff {m : GoMap K V} {k : K} : k ∈ m.keys ↔ ∃ v, m.lookup k = some v := by
  rw [← AList.mem_keys, ← AList.lookup_isSome, Option.isSome_iff_exists]

theorem lookup_insert_eq (m : GoMap K V) (k k' : K) (v : V) :
    (m.insert k v).lookup k' = if k' = k then some v else m.lookup k' := by
  split
  next h => subst h; exact AList.lookup_insert m
  next h => exact AList.lookup_insert_ne h

/-- What holds of all entries and of a further one holds when it has been inserted. -/
theorem forall_lookup_insert {m : GoMap K V} {P : K → V → Prop} {k : K} {v : V}
    (h : ∀ k' v', m.lookup k' = some v' → P k' v') (hk : P k v) (k' : K) (v' : V)
    (hlookup : (m.insert k v).lookup k' = some v') : P k' v' := by
  rw [lookup_insert_eq] at hlookup
  split at hlookup
  next heq =>
    subst heq
    exact Option.some.inj hlookup ▸ hk
  next => exact h k' v' hlookup

theorem forall_lookup_insert_some {m : GoMap K (Option V)} {P : K → V → Prop} {k : K} {v : V}
    (h : ∀ k' v', m.lookup k' = some (some v') → P k' v') (hk : P k v) (k' : K) (v' : V)
    (hlookup : (m.insert k (some v)).lookup k' = some (some v')) : P k' v' :=
  forall_lookup_insert (P := fun k' o => ∀ v', o = some v' → P k' v')
    (fun k' _ hold v' heq => h k' v' (heq ▸ hold)) (fun _ heq => Option.some.inj heq ▸ hk) k' _
    hlookup v' rfl

theorem mem_keys_insert {m : GoMap K V} {k k' : K} {v : V} :
    k' ∈ (m.insert k v).keys ↔ k' = k ∨ k' ∈ m.keys := by
  rw [← AList.mem_keys, ← AList.mem_keys, AList.mem_insert]

/-- Overwriting the value of a key leaves the keys. -/
theorem mem_keys_insert_of_lookup {m : GoMap K V} {k : K} {v v' : V} (h : m.lookup k = some v)
    (k' : K) : k' ∈ (m.insert k v').keys ↔ k' ∈ m.keys := by
  rw [mem_keys_insert]
  refine ⟨?_, Or.inr⟩
  rintro (rfl | hmem)
  · exact mem_keys_iff.mpr ⟨v, h⟩
  · exact hmem

/-- A map from a list of keys, with the value given by a function. -/
def ofKeys (ks : List K) (f : K → V) : GoMap K V :=
  ks.foldl (fun m k => m.insert k (f k)) ∅

theorem lookup_foldl_insert (f : K → V) (ks : List K) (m : GoMap K V) (k : K) :
    (ks.foldl (fun m k => m.insert k (f k)) m).lookup k =
      if k ∈ ks then some (f k) else m.lookup k := by
  induction ks generalizing m with
  | nil => simp
  | cons a ks ih =>
    rw [List.foldl_cons, ih, lookup_insert_eq]
    by_cases hk : k ∈ ks
    · simp [hk]
    · by_cases hka : k = a
      · simp [hka]
      · simp [hk, hka]

theorem lookup_ofKeys (ks : List K) (f : K → V) (k : K) :
    (ofKeys ks f).lookup k = if k ∈ ks then some (f k) else none := by
  rw [ofKeys, lookup_foldl_insert, AList.lookup_empty]

/-! ### Iterating over maps -/

open Fallible FallibleLoop

variable {m rest : GoMap K V} {k k' : K} {v : V}

/-- `maputil.GetKeysAndValues`, as pairs. -/
def pairs (m : GoMap K V) : List (K × V) := m.entries.map fun e => (e.1, e.2)

theorem mem_pairs : (k, v) ∈ m.pairs ↔ m.lookup k = some v := by
  rw [pairs, List.mem_map, ← Option.mem_def, AList.mem_lookup_iff]
  refine ⟨?_, fun h => ⟨⟨k, v⟩, h, rfl⟩⟩
  rintro ⟨e, he, heq⟩
  obtain ⟨rfl, rfl⟩ := Prod.mk.inj heq
  exact he

omit [DecidableEq K] in
theorem map_fst_pairs (m : GoMap K V) : m.pairs.map Prod.fst = m.keys := by
  rw [pairs, List.map_map]
  rfl

theorem lookup_erase_eq_some (h : (m.erase k).lookup k' = some v) : m.lookup k' = some v := by
  rcases eq_or_ne k' k with rfl | hne
  · rw [AList.lookup_erase] at h
    cases h
  · rwa [AList.lookup_erase_ne hne] at h

/-- Apply a function to all values. -/
def mapVal {W : Type} (f : V → W) (m : GoMap K V) : GoMap K W where
  entries := m.entries.map fun e => ⟨e.1, f e.2⟩
  nodupKeys := by
    have hkeys : (m.entries.map fun e => (⟨e.1, f e.2⟩ : Σ _ : K, W)).keys = m.entries.keys := by
      simp [List.keys, Function.comp_def]
    rw [List.NodupKeys, hkeys]
    exact m.nodupKeys

theorem lookup_mapVal {W : Type} (f : V → W) (m : GoMap K V) (k : K) :
    (m.mapVal f).lookup k = (m.lookup k).map f :=
  List.dlookup_map₂ (l := m.entries) (f := fun _ => f) k

omit [DecidableEq K] in
theorem mapVal_mapVal {W X : Type} (f : V → W) (g : W → X) (m : GoMap K V) :
    (m.mapVal f).mapVal g = m.mapVal (g ∘ f) :=
  AList.ext (List.map_map ..)

/-- Delete the entries whose keys do not satisfy a predicate. -/
def filterKeys (p : K → Bool) (m : GoMap K V) : GoMap K V where
  entries := m.entries.filter fun e => p e.1
  nodupKeys := m.nodupKeys.sublist List.filter_sublist

theorem lookup_filterKeys_eq_some {p : K → Bool} :
    (m.filterKeys p).lookup k = some v ↔ p k = true ∧ m.lookup k = some v := by
  rw [← Option.mem_def, ← Option.mem_def, AList.mem_lookup_iff, AList.mem_lookup_iff, filterKeys,
    List.mem_filter]
  exact and_comm

theorem entries_perm_erase (h : m.lookup k = some v) :
    m.entries.Perm (⟨k, v⟩ :: (m.erase k).entries) := by
  have hkey : k ∈ m.entries.keys := mem_keys_iff.mpr ⟨v, h⟩
  obtain ⟨v', l₁, l₂, -, hentries, herase⟩ := List.exists_of_kerase hkey
  have hv' : m.lookup k = some v' := by
    rw [← Option.mem_def, AList.mem_lookup_iff, hentries]
    simp
  obtain rfl : v = v' := Option.some.inj (h.symm.trans hv')
  rw [show (m.erase k).entries = l₁ ++ l₂ from herase, hentries]
  exact List.perm_middle

/-- `maputil.RemoveAll`: the values of the removed entries, and the rest of the map. -/
def removeAll (p : V → Fallible Bool) (m : GoMap K V) : Fallible (List V × GoMap K V) :=
  m.pairs.foldlM (fun acc e => do
    if ← p e.2 then return (acc.1 ++ [e.2], acc.2.erase e.1) else return acc) ([], m)

/-- What is removed are the values that satisfy the predicate, and the others are left. -/
theorem removeAll_spec {p : V → Fallible Bool} {removed : List V}
    (h : m.removeAll p = .ok (removed, rest)) :
    removed = (m.pairs.filter fun e => p e.2 = .ok true).map Prod.snd ∧
      ∀ k v, rest.lookup k = some v ↔ m.lookup k = some v ∧ p v ≠ .ok true := by
  have hloop := foldlM_induction (I := fun visited (acc : List V × GoMap K V) =>
    acc.1 = (visited.filter fun e => p e.2 = .ok true).map Prod.snd ∧
      ∀ k v, acc.2.lookup k = some v ↔
        m.lookup k = some v ∧ ((k, v) ∈ visited → p v ≠ .ok true)) ?_ ?_ h
  · refine ⟨hloop.1, fun k v => (hloop.2 k v).trans (and_congr_right fun hv => ?_)⟩
    exact forall_prop_of_true (mem_pairs.mpr hv)
  · exact ⟨rfl, fun k v => by simp⟩
  · rintro visited ⟨k, v⟩ rest heq acc acc' ⟨hremoved, hrest⟩ hstep
    have hkv : m.lookup k = some v := mem_pairs.mp (by rw [heq]; simp)
    obtain ⟨b, hb, hacc⟩ := bind_eq_ok.mp hstep
    have hp : p v = .ok b := hb
    cases b with
    | false =>
      cases hacc
      refine ⟨by simp [hremoved, hp], fun k' v' => (hrest k' v').trans (and_congr_right fun _ => ?_)⟩
      rw [List.mem_append, or_imp, and_iff_left]
      rw [List.mem_singleton]
      rintro ⟨⟩
      simp [hp]
    | true =>
      cases hacc
      refine ⟨by simp [hremoved, hp], fun k' v' => ?_⟩
      rw [List.mem_append, or_imp, ← and_assoc, ← hrest, List.mem_singleton]
      rcases eq_or_ne k' k with rfl | hne
      · rw [AList.lookup_erase]
        refine iff_of_false nofun ?_
        rintro ⟨hacc, hnot⟩
        obtain rfl := Option.some.inj (((hrest _ _).mp hacc).1.symm.trans hkv)
        exact hnot rfl hp
      · simp [AList.lookup_erase_ne hne, hne]

end GoMap

/-- The order of Go strings: lexicographic on bytes. -/
def GoString.le (a b : GoString) : Bool := decide (a ≤ b)

/-- The order of unsigned 64-bit numbers. -/
def uint64Le (a b : UInt64) : Bool := decide (a ≤ b)

instance : Std.Total fun a b : UInt64 => (uint64Le a b : Prop) where
  total a b := by simpa [uint64Le] using UInt64.le_total a b

instance : IsTrans UInt64 fun a b => (uint64Le a b : Prop) where
  trans a b c hab hbc := by
    simp only [uint64Le, decide_eq_true_iff] at hab hbc ⊢
    exact UInt64.le_trans hab hbc

instance : Std.Antisymm fun a b : UInt64 => (uint64Le a b : Prop) where
  antisymm a b hab hba := by
    simp only [uint64Le, decide_eq_true_iff] at hab hba
    exact UInt64.le_antisymm hab hba

/-- Maps with the same numbers as keys have the same sorted keys. -/
theorem GoMap.sortedKeys_congr {V V' : Type} {m : GoMap UInt64 V} {m' : GoMap UInt64 V'}
    (h : ∀ k, k ∈ m.keys ↔ k ∈ m'.keys) : sortedKeys uint64Le m = sortedKeys uint64Le m' := by
  have hperm : (sortedKeys uint64Le m).Perm (sortedKeys uint64Le m') := by
    rw [List.perm_ext_iff_of_nodup (sortedKeys_nodup _ _) (sortedKeys_nodup _ _)]
    intro k
    rw [mem_sortedKeys, mem_sortedKeys]
    exact h k
  exact hperm.eq_of_pairwise' (List.pairwise_insertionSort _ _) (List.pairwise_insertionSort _ _)

end Mir
