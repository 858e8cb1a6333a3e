import Mir.Trantor.Transaction

/-!
# Client progress

`clientprogress.DeliveredTXs` and `clientprogress.ClientProgress`: the numbers of the delivered
transactions of each client, kept as a low watermark and a set of numbers from the watermark on.
Garbage collection moves numbers below the watermark, lazily.

A tracker **represents** the set of the numbers added to it (`Represents`), whichever way it was
built. After garbage collection the watermark is the least number not in the set, so the protobuf
message is determined by the set: `clientProgress_canonical`.
-/

namespace Mir.ClientProgress

open Checkpoint (ClientID DeliveredTXs)

/-! ### The module -/

/-- `clientprogress.DeliveredTXs`. -/
structure Tracker where
  lowWM : TxNo
  delivered : GoMap TxNo Unit
  deriving DecidableEq

namespace Tracker

/-- `EmptyDeliveredTXs`. -/
def empty : Tracker := ⟨0, ∅⟩

/-- `DeliveredTXsFromPb`. -/
def fromPb (pb : DeliveredTXs) : Tracker := ⟨pb.lowWm, GoMap.ofKeys pb.delivered fun _ => ()⟩

/-- `DeliveredTXs.Contains`. -/
def contains (dt : Tracker) (txNo : TxNo) : Bool :=
  if txNo < dt.lowWM then true else txNo ∈ dt.delivered.keys

/-- `DeliveredTXs.Add`. -/
def add (dt : Tracker) (txNo : TxNo) : Tracker × Bool :=
  if txNo < dt.lowWM then (dt, false)
  else (⟨dt.lowWM, dt.delivered.insert txNo ()⟩, txNo ∉ dt.delivered.keys)

/-- The loop of `GarbageCollect`, for at most the given number of iterations. -/
def collect : ℕ → Tracker → Tracker
  | 0, dt => dt
  | fuel + 1, dt =>
    if dt.lowWM ∈ dt.delivered.keys then
      collect fuel ⟨dt.lowWM + 1, dt.delivered.erase dt.lowWM⟩
    else dt

/-- `DeliveredTXs.GarbageCollect`: each iteration of the loop deletes a number. -/
def garbageCollect (dt : Tracker) : Tracker := collect dt.delivered.keys.length dt

/-- `DeliveredTXs.Pb`. -/
def pb (dt : Tracker) : DeliveredTXs := ⟨dt.lowWM, dt.delivered.sortedKeys uint64Le⟩

end Tracker

/-- `clientprogress.ClientProgress`. -/
abbrev Progress := GoMap ClientID Tracker

namespace Progress

/-- `ClientProgress.Contains`. -/
def contains (cp : Progress) (clID : ClientID) (txNo : TxNo) : Bool :=
  match cp.lookup clID with
  | none => false
  | some dt => dt.contains txNo

/-- `ClientProgress.Add`. -/
def add (cp : Progress) (clID : ClientID) (txNo : TxNo) : Progress × Bool :=
  let dt := (cp.lookup clID).getD .empty
  (cp.insert clID (dt.add txNo).1, (dt.add txNo).2)

/-- `ClientProgress.GarbageCollect`, with the low watermarks it returns. -/
def garbageCollect (cp : Progress) : Progress × GoMap ClientID TxNo :=
  let collected := cp.mapVal Tracker.garbageCollect
  (collected, collected.mapVal Tracker.lowWM)

/-- `ClientProgress.Pb`. -/
def pb (cp : Progress) : Checkpoint.ClientProgress := ⟨cp.mapVal Tracker.pb⟩

/-- `ClientProgress.LoadPb` forgets what the object contained. -/
def loadPb (_cp : Progress) (pb : Checkpoint.ClientProgress) : Progress :=
  pb.progress.mapVal Tracker.fromPb

/-- `FromPb`. -/
def fromPb (pb : Checkpoint.ClientProgress) : Progress := loadPb ∅ pb

end Progress

/-! ### Trackers represent sets -/

/-- The largest transaction number. -/
def maxTxNo : TxNo := 18446744073709551615

/-- Below the largest number, the successor bounds the same numbers. -/
theorem lt_add_one_iff {a n : TxNo} (h : a ≠ maxTxNo) : n < a + 1 ↔ n < a ∨ n = a := by
  have hne : a.toNat ≠ 18446744073709551615 := fun heq => h (UInt64.toNat_inj.mp heq)
  have hlt := a.toNat_lt
  rw [UInt64.lt_iff_toNat_lt, UInt64.lt_iff_toNat_lt, ← UInt64.toNat_inj, UInt64.toNat_add]
  simp only [UInt64.toNat_one]
  omega

/-- The numbers of a tracker: those below the watermark, and the delivered ones. The largest number
is not among them. -/
structure Represents (dt : Tracker) (S : Set TxNo) : Prop where
  mem_iff : ∀ n, n ∈ S ↔ n < dt.lowWM ∨ n ∈ dt.delivered.keys
  max : maxTxNo ∉ S

/-- No delivered number is below the watermark. -/
def Tracker.Tidy (dt : Tracker) : Prop := ∀ n ∈ dt.delivered.keys, ¬ n < dt.lowWM

section Represents

variable {dt dt' : Tracker} {S : Set TxNo} {n : TxNo}

theorem Tracker.contains_iff : dt.contains n = true ↔ n < dt.lowWM ∨ n ∈ dt.delivered.keys := by
  rw [Tracker.contains]
  split
  next hlt => simp [hlt]
  next hlt => simp [hlt]

theorem Represents.contains_iff (h : Represents dt S) : dt.contains n = true ↔ n ∈ S := by
  rw [h.mem_iff, Tracker.contains_iff]

theorem Represents.add (h : Represents dt S) (hn : n ≠ maxTxNo) :
    Represents (dt.add n).1 (insert n S) := by
  have hmax : maxTxNo ∉ insert n S := by
    rintro (heq | hmem)
    · exact hn heq.symm
    · exact h.max hmem
  refine ⟨fun m => ?_, hmax⟩
  rw [Set.mem_insert_iff, h.mem_iff, Tracker.add]
  split
  next hlt =>
    refine ⟨?_, Or.inr⟩
    rintro (rfl | hm)
    · exact .inl hlt
    · exact hm
  next hlt =>
    rw [GoMap.mem_keys_insert]
    tauto

theorem Represents.add_eq_true_iff (h : Represents dt S) : (dt.add n).2 = true ↔ n ∉ S := by
  rw [h.mem_iff, Tracker.add]
  split
  next hlt => simp [hlt]
  next hlt => simp [hlt]

theorem Tracker.Tidy.add (h : dt.Tidy) (n : TxNo) : (dt.add n).1.Tidy := by
  rw [Tracker.add]
  split
  next => exact h
  next hlt =>
    intro m hm
    rcases GoMap.mem_keys_insert.mp hm with rfl | hm
    · exact hlt
    · exact h m hm

theorem mem_keys_erase_lowWM : n ∈ (dt.delivered.erase dt.lowWM).keys ↔
    n ≠ dt.lowWM ∧ n ∈ dt.delivered.keys := by
  rw [← AList.mem_keys, ← AList.mem_keys, AList.mem_erase]

/-- A watermark in the set is not the largest number, so incrementing it does not wrap around. -/
theorem Represents.lowWM_ne (h : Represents dt S) (hmem : dt.lowWM ∈ dt.delivered.keys) :
    dt.lowWM ≠ maxTxNo := by
  intro heq
  refine h.max ?_
  rw [← heq]
  exact (h.mem_iff _).mpr (.inr hmem)

/-- One iteration of the loop of `GarbageCollect`. -/
theorem Represents.collect_step (h : Represents dt S) (hmem : dt.lowWM ∈ dt.delivered.keys) :
    Represents ⟨dt.lowWM + 1, dt.delivered.erase dt.lowWM⟩ S := by
  refine ⟨fun n => ?_, h.max⟩
  rw [h.mem_iff, lt_add_one_iff (h.lowWM_ne hmem), mem_keys_erase_lowWM]
  rcases eq_or_ne n dt.lowWM with rfl | hn
  · simp [hmem]
  · simp [hn]

/-- The loop keeps the set, and stops at a watermark that has not been delivered. -/
theorem Represents.collect {fuel : ℕ} (h : Represents dt S)
    (hfuel : dt.delivered.keys.length ≤ fuel) : Represents (dt.collect fuel) S ∧
      (dt.collect fuel).lowWM ∉ (dt.collect fuel).delivered.keys ∧
      (dt.Tidy → (dt.collect fuel).Tidy) := by
  induction fuel generalizing dt with
  | zero =>
    refine ⟨h, ?_, id⟩
    rw [Tracker.collect, List.eq_nil_of_length_eq_zero (Nat.le_zero.mp hfuel)]
    exact List.not_mem_nil
  | succ fuel ih =>
    rw [Tracker.collect]
    split
    next hmem =>
      have hlength : (dt.delivered.erase dt.lowWM).keys.length ≤ fuel := by
        rw [AList.keys_erase, List.length_erase_of_mem hmem]
        omega
      obtain ⟨hrep, hlow, htidy⟩ := ih (h.collect_step hmem) hlength
      refine ⟨hrep, hlow, fun hdt => htidy fun n hn => ?_⟩
      obtain ⟨hne, hdelivered⟩ := mem_keys_erase_lowWM.mp hn
      rw [lt_add_one_iff (h.lowWM_ne hmem)]
      exact not_or.mpr ⟨hdt n hdelivered, hne⟩
    next hmem => exact ⟨h, hmem, id⟩

theorem Represents.garbageCollect (h : Represents dt S) : Represents dt.garbageCollect S :=
  (h.collect le_rfl).1

/-- What garbage collection establishes. -/
structure Collected (dt : Tracker) (S : Set TxNo) : Prop extends Represents dt S where
  lowWM_notMem : dt.lowWM ∉ dt.delivered.keys
  tidy : dt.Tidy

theorem Represents.collected (h : Represents dt S) (htidy : dt.Tidy) :
    Collected dt.garbageCollect S :=
  have hcollect := h.collect le_rfl
  ⟨hcollect.1, hcollect.2.1, hcollect.2.2 htidy⟩

/-- The watermark of a garbage-collected tracker is the least number that is not in the set. -/
theorem Collected.isLeast (h : Collected dt S) : IsLeast Sᶜ dt.lowWM := by
  refine ⟨fun hmem => ?_, fun n hn => ?_⟩
  · rcases (h.mem_iff _).mp hmem with hlt | hdelivered
    · exact UInt64.lt_irrefl _ hlt
    · exact h.lowWM_notMem hdelivered
  · exact UInt64.not_lt.mp fun hlt => hn ((h.mem_iff n).mpr (.inl hlt))

/-- The delivered numbers of a garbage-collected tracker are those above the watermark. -/
theorem Collected.mem_delivered (h : Collected dt S) :
    n ∈ dt.delivered.keys ↔ n ∈ S ∧ dt.lowWM < n := by
  rw [h.mem_iff]
  constructor
  · intro hn
    have hne : n ≠ dt.lowWM := fun heq => h.lowWM_notMem (heq ▸ hn)
    exact ⟨.inr hn, UInt64.lt_of_le_of_ne (UInt64.not_lt.mp (h.tidy n hn)) hne.symm⟩
  · rintro ⟨hlt | hn, hlow⟩
    · exact absurd hlt (UInt64.lt_asymm hlow)
    · exact hn

/-- The set determines the message of a garbage-collected tracker. -/
theorem Collected.pb_eq (h : Collected dt S) (h' : Collected dt' S) : dt.pb = dt'.pb := by
  have hlow : dt.lowWM = dt'.lowWM :=
    UInt64.le_antisymm (h.isLeast.2 h'.isLeast.1) (h'.isLeast.2 h.isLeast.1)
  have hkeys : ∀ n, n ∈ dt.delivered.keys ↔ n ∈ dt'.delivered.keys := by
    intro n
    rw [h.mem_delivered, h'.mem_delivered, hlow]
  rw [Tracker.pb, Tracker.pb, hlow, GoMap.sortedKeys_congr hkeys]

theorem mem_keys_fromPb_pb : n ∈ (Tracker.fromPb dt.pb).delivered.keys ↔ n ∈ dt.delivered.keys := by
  rw [Tracker.fromPb, GoMap.mem_keys_iff, GoMap.lookup_ofKeys, Tracker.pb]
  simp

/-- A tracker restored from the message of another one represents the same set. -/
theorem Represents.fromPb (h : Represents dt S) : Represents (.fromPb dt.pb) S := by
  refine ⟨fun n => ?_, h.max⟩
  rw [mem_keys_fromPb_pb]
  exact h.mem_iff n

theorem Tracker.Tidy.fromPb (h : dt.Tidy) : (Tracker.fromPb dt.pb).Tidy := fun n hn =>
  h n (mem_keys_fromPb_pb.mp hn)

end Represents

/-- The numbers in the message are sorted. -/
theorem Tracker.pairwise_delivered (dt : Tracker) : dt.pb.delivered.Pairwise (· < ·) := by
  have hle : dt.pb.delivered.Pairwise (· ≤ ·) := by
    refine (List.pairwise_insertionSort (fun a b => (uint64Le a b : Prop)) _).imp ?_
    intro a b hab
    exact of_decide_eq_true hab
  have hne : dt.pb.delivered.Pairwise (· ≠ ·) := GoMap.sortedKeys_nodup _ _
  exact (hle.and hne).imp fun h => UInt64.lt_of_le_of_ne h.1 h.2

/-! ### Progress of all clients -/

/-- The transactions that all trackers together represent. -/
structure Tracks (cp : Progress) (S : Set (ClientID × TxNo)) : Prop where
  represents : ∀ c, Represents ((cp.lookup c).getD .empty) {n | (c, n) ∈ S}

section Tracks

variable {cp cp' : Progress} {S : Set (ClientID × TxNo)} {c : ClientID} {n : TxNo}

/-- A client without a tracker has delivered nothing, like one with an empty tracker. -/
theorem Progress.contains_eq (cp : Progress) (c : ClientID) (n : TxNo) :
    cp.contains c n = ((cp.lookup c).getD .empty).contains n := by
  rw [Progress.contains]
  cases cp.lookup c with
  | none => simp [Tracker.empty, Tracker.contains]
  | some dt => rfl

/-- An object without the largest number represents what it contains. -/
theorem tracks_contains (h : ∀ c, cp.contains c maxTxNo = false) :
    Tracks cp {x | cp.contains x.1 x.2 = true} := by
  refine ⟨fun c => ⟨fun n => ?_, fun hmax => ?_⟩⟩
  · change cp.contains c n = true ↔ _
    rw [Progress.contains_eq, Tracker.contains_iff]
  · exact absurd hmax (Bool.eq_false_iff.mp (h c))

theorem Tracks.contains_iff (h : Tracks cp S) : cp.contains c n = true ↔ (c, n) ∈ S := by
  rw [Progress.contains_eq]
  exact (h.represents c).contains_iff

theorem Tracks.add (h : Tracks cp S) (hn : n ≠ maxTxNo) :
    Tracks (cp.add c n).1 (insert (c, n) S) := by
  refine ⟨fun c' => ?_⟩
  rw [Progress.add, GoMap.lookup_insert_eq]
  split
  next heq =>
    have hset : {n' | (c', n') ∈ insert (c, n) S} = insert n {n' | (c, n') ∈ S} := by
      ext n'
      simp [heq]
    rw [hset]
    exact (h.represents c).add hn
  next hne =>
    have hset : {n' | (c', n') ∈ insert (c, n) S} = {n' | (c', n') ∈ S} := by
      ext n'
      simp [hne]
    rw [hset]
    exact h.represents c'

theorem Tracks.add_eq_true_iff (h : Tracks cp S) : (cp.add c n).2 = true ↔ (c, n) ∉ S :=
  (h.represents c).add_eq_true_iff

/-- Replacing every tracker by one for the same set. -/
theorem Tracks.mapVal (h : Tracks cp S) {f : Tracker → Tracker}
    (hf : ∀ dt T, Represents dt T → Represents (f dt) T) : Tracks (cp.mapVal f) S := by
  refine ⟨fun c => ?_⟩
  have hc := h.represents c
  rw [GoMap.lookup_mapVal]
  cases hlookup : cp.lookup c with
  | none =>
    rw [hlookup] at hc
    exact hc
  | some dt =>
    rw [hlookup] at hc
    exact hf dt _ hc

theorem Tracks.garbageCollect (h : Tracks cp S) : Tracks cp.garbageCollect.1 S :=
  h.mapVal fun _ _ hdt => hdt.garbageCollect

theorem Tracks.loadPb (h : Tracks cp S) : Tracks (cp'.loadPb cp.pb) S := by
  rw [Progress.loadPb, Progress.pb, GoMap.mapVal_mapVal]
  exact h.mapVal fun _ _ hdt => hdt.fromPb

end Tracks

/-- The trackers are tidy, and every client with a tracker has delivered something. -/
structure Canonical (cp : Progress) (S : Set (ClientID × TxNo)) : Prop extends Tracks cp S where
  tidy : ∀ c dt, cp.lookup c = some dt → dt.Tidy
  has_tracker : ∀ c, (∃ n, (c, n) ∈ S) ↔ ∃ dt, cp.lookup c = some dt

section Canonical

variable {cp cp' : Progress} {S : Set (ClientID × TxNo)} {c : ClientID} {n : TxNo}

theorem canonical_empty : Canonical ∅ ∅ where
  represents c := ⟨fun n => by simp [Tracker.empty], Set.notMem_empty _⟩
  tidy c dt h := by simp at h
  has_tracker c := by simp

theorem Canonical.add (h : Canonical cp S) (hn : n ≠ maxTxNo) :
    Canonical (cp.add c n).1 (insert (c, n) S) where
  toTracks := h.toTracks.add hn
  tidy := by
    refine GoMap.forall_lookup_insert h.tidy (Tracker.Tidy.add ?_ n)
    cases hlookup : cp.lookup c with
    | none => exact fun m hm => by simp [Tracker.empty] at hm
    | some dt => exact h.tidy c dt hlookup
  has_tracker c' := by
    rw [Progress.add, GoMap.lookup_insert_eq]
    split
    next heq => simp [heq]
    next hne => simpa [hne] using h.has_tracker c'

/-- Replacing every tracker by a tidy one for the same set. -/
theorem Canonical.mapVal (h : Canonical cp S) {f : Tracker → Tracker}
    (hf : ∀ dt T, Represents dt T → Represents (f dt) T)
    (htidy : ∀ dt T, Represents dt T → dt.Tidy → (f dt).Tidy) : Canonical (cp.mapVal f) S where
  toTracks := h.toTracks.mapVal hf
  tidy c dt hdt := by
    rw [GoMap.lookup_mapVal] at hdt
    obtain ⟨dt, hlookup, rfl⟩ := Option.map_eq_some_iff.mp hdt
    have hrep := h.represents c
    rw [hlookup] at hrep
    exact htidy dt _ hrep (h.tidy c dt hlookup)
  has_tracker c := by
    rw [h.has_tracker, GoMap.lookup_mapVal]
    simp

theorem Canonical.garbageCollect (h : Canonical cp S) : Canonical cp.garbageCollect.1 S :=
  h.mapVal (fun _ _ hdt => hdt.garbageCollect) fun _ _ hdt htidy => (hdt.collected htidy).tidy

theorem Canonical.loadPb (h : Canonical cp S) : Canonical (cp'.loadPb cp.pb) S := by
  rw [Progress.loadPb, Progress.pb, GoMap.mapVal_mapVal]
  exact h.mapVal (fun _ _ hdt => hdt.fromPb) fun _ _ _ htidy => htidy.fromPb

/-- The trackers after garbage collection. -/
theorem Canonical.collected (h : Canonical cp S) {dt : Tracker}
    (hdt : cp.garbageCollect.1.lookup c = some dt) : Collected dt {n | (c, n) ∈ S} := by
  rw [Progress.garbageCollect, GoMap.lookup_mapVal] at hdt
  obtain ⟨dt, hlookup, rfl⟩ := Option.map_eq_some_iff.mp hdt
  have hrep := h.represents c
  rw [hlookup] at hrep
  exact Represents.collected hrep (h.tidy c dt hlookup)

/-- Maps with the same lookups have the same entries. -/
theorem same_of_lookup_eq {K V : Type} [DecidableEq K] {m m' : GoMap K V}
    (h : ∀ k, m.lookup k = m'.lookup k) : m.Same m' :=
  AList.toFinmap_eq.mp (Finmap.ext_lookup h)

/-- The transactions determine the message of a garbage-collected progress. -/
theorem Canonical.pb_same (h : Canonical cp S) (h' : Canonical cp' S) :
    cp.garbageCollect.1.pb.progress.Same cp'.garbageCollect.1.pb.progress := by
  refine same_of_lookup_eq fun c => ?_
  rw [Progress.pb, Progress.pb, GoMap.lookup_mapVal, GoMap.lookup_mapVal]
  by_cases hc : ∃ n, (c, n) ∈ S
  · obtain ⟨dt, hdt⟩ := (h.garbageCollect.has_tracker c).mp hc
    obtain ⟨dt', hdt'⟩ := (h'.garbageCollect.has_tracker c).mp hc
    rw [hdt, hdt', Option.map_some, Option.map_some, (h.collected hdt).pb_eq (h'.collected hdt')]
  · have hnone : ∀ {cp : Progress}, Canonical cp S → cp.lookup c = none := by
      intro cp hcp
      refine Option.eq_none_iff_forall_ne_some.mpr fun dt hdt => ?_
      exact hc ((hcp.has_tracker c).mpr ⟨dt, hdt⟩)
    rw [hnone h.garbageCollect, hnone h'.garbageCollect]

end Canonical

/-! ### Histories -/

/-- The objects that a sequence of operations can lead to, with the transactions added. -/
inductive Built : Progress → Set (ClientID × TxNo) → Prop
  | newClientProgress : Built ∅ ∅
  | add {cp S} (c : ClientID) (n : TxNo) (hn : n < maxTxNo) :
    Built cp S → Built (cp.add c n).1 (insert (c, n) S)
  | garbageCollect {cp S} : Built cp S → Built cp.garbageCollect.1 S
  | loadPb {cp S} (cp' : Progress) : Built cp S → Built (cp'.loadPb cp.pb) S
  | fromPb {cp S} : Built cp S → Built (.fromPb cp.pb) S

theorem Built.canonical {cp : Progress} {S : Set (ClientID × TxNo)} (h : Built cp S) :
    Canonical cp S := by
  induction h with
  | newClientProgress => exact canonical_empty
  | add c n hn _ ih => exact ih.add (UInt64.ne_of_lt hn)
  | garbageCollect _ ih => exact ih.garbageCollect
  | loadPb cp' _ ih => exact ih.loadPb
  | fromPb _ ih => exact ih.loadPb

/-- **`ClientProgress` is a canonical representation of a set**: an object contains what was added
to it, `Add` tells whether a transaction is new, garbage collection leaves the watermark of each
client at its smallest missing number, and the message of a garbage-collected object depends only on
the transactions. -/
theorem clientProgress_canonical {cp : Progress} {S : Set (ClientID × TxNo)} (h : Built cp S) :
    (∀ c n, cp.contains c n = true ↔ (c, n) ∈ S) ∧
    (∀ c n, (cp.add c n).2 = true ↔ (c, n) ∉ S) ∧
    (∀ c n, cp.garbageCollect.1.contains c n = cp.contains c n) ∧
    (∀ c low, cp.garbageCollect.2.lookup c = some low → IsLeast {n | (c, n) ∉ S} low) ∧
    (∀ c txs, cp.garbageCollect.1.pb.progress.lookup c = some txs →
      IsLeast {n | (c, n) ∉ S} txs.lowWm ∧ txs.delivered.Pairwise (· < ·) ∧
        ∀ n ∈ txs.delivered, txs.lowWm < n) ∧
    ∀ cp', Built cp' S →
      cp.garbageCollect.1.pb.progress.Same cp'.garbageCollect.1.pb.progress := by
  have hcp := h.canonical
  refine ⟨fun c n => hcp.contains_iff, fun c n => hcp.add_eq_true_iff, fun c n => ?_,
    fun c low hlow => ?_, fun c txs htxs => ?_, fun cp' h' => hcp.pb_same h'.canonical⟩
  · rw [Bool.eq_iff_iff, hcp.garbageCollect.contains_iff, hcp.contains_iff]
  · rw [show cp.garbageCollect.2 = cp.garbageCollect.1.mapVal Tracker.lowWM from rfl,
      GoMap.lookup_mapVal] at hlow
    obtain ⟨dt, hdt, rfl⟩ := Option.map_eq_some_iff.mp hlow
    exact (hcp.collected hdt).isLeast
  · rw [Progress.pb, GoMap.lookup_mapVal] at htxs
    obtain ⟨dt, hdt, rfl⟩ := Option.map_eq_some_iff.mp htxs
    have hcollected := hcp.collected hdt
    refine ⟨hcollected.isLeast, dt.pairwise_delivered, fun n hn => ?_⟩
    exact (hcollected.mem_delivered.mp (GoMap.mem_sortedKeys.mp hn)).2

/-- Two histories of a client: one adds 1 before 0, the other one adds 0, is garbage-collected and
restarted from its message, and adds 1. -/
theorem clientProgress_canonical_two_histories :
    let client : ClientID := [97]
    let cp : Progress := (((∅ : Progress).add client 1).1.add client 0).1
    let restarted := Progress.fromPb ((∅ : Progress).add client 0).1.garbageCollect.1.pb
    let cp' : Progress := (restarted.add client 1).1
    Built cp {(client, 0), (client, 1)} ∧
      cp.garbageCollect.1.pb.progress.lookup client = some ⟨2, []⟩ ∧
      cp.garbageCollect.1.pb.progress.Same cp'.garbageCollect.1.pb.progress := by
  intro client cp restarted cp'
  have hset : ({(client, 0), (client, 1)} : Set (ClientID × TxNo)) = {(client, 1), (client, 0)} :=
    Set.pair_comm _ _
  have h0 : Built ((∅ : Progress).add client 0).1 {(client, 0)} := by
    simpa using Built.add client 0 (by decide) .newClientProgress
  have h1 : Built ((∅ : Progress).add client 1).1 {(client, 1)} := by
    simpa using Built.add client 1 (by decide) .newClientProgress
  have hcp : Built cp {(client, 0), (client, 1)} := .add client 0 (by decide) h1
  have hcp' : Built cp' {(client, 0), (client, 1)} := by
    rw [hset]
    exact .add client 1 (by decide) h0.garbageCollect.fromPb
  exact ⟨hcp, by decide +kernel, (clientProgress_canonical hcp).2.2.2.2.2 cp' hcp'⟩

end Mir.ClientProgress
