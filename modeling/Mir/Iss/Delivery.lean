import Mir.Iss.Memberships
import Mir.Iss.Epochs

/-!
# The order of deliveries

The certificates that ISS delivers to the application form a total order without gaps, framed by
epochs (`InOrder`). `Run` is a run of ISS in which the orderers, the availability module, the
application and the checkpoint validator behave as ISS expects; the messages of other nodes are
arbitrary.

The permissive validator accepts checkpoints that are signed only by the membership they list
themselves, and ISS does not compare the sequence number of a checkpoint it installs with its own.
A forged checkpoint can therefore move ISS back (`delivered_twice`). If every installed checkpoint
starts at or after the end of the current epoch, and sequence and epoch numbers do not overflow,
all deliveries are in order (`delivers_in_order`).
-/

namespace Mir.Iss

open Checkpoint Tracing

/-! ### Deliveries in order -/

/-- The sequence numbers of the delivered certificates. -/
def delivered (out : List Output) : List SeqNr :=
  out.filterMap fun
    | .deliverCert sn _ _ => some sn
    | _ => none

/-- The sequence number after the last delivered certificate, or that of the checkpoint restored
since then. -/
def expected (out : List Output) : Option SeqNr :=
  out.foldl (fun
    | _, .restoreState chkp => some chkp.sn
    | _, .deliverCert sn _ _ => some (sn + 1)
    | n, _ => n) none

/-- The sequence number belongs to a segment of an epoch. -/
def SegmentOf (out : List Output) (epoch : EpochNr) (sn : SeqNr) : Prop :=
  ∃ k seg, .newOrderer (.segment epoch k) seg ∈ out ∧ sn ∈ seg.proposals.keys

/-- The application has the checkpoint at which an epoch starts. -/
def HasCheckpoint (out : List Output) (epoch : EpochNr) : Prop :=
  ∃ chkp : StableCheckpoint, chkp.epoch = .ok epoch ∧
    (.stableCheckpoint chkp ∈ out ∨ .restoreState chkp ∈ out)

/-- **A gap-free total order framed by epochs.** -/
structure InOrder (startingChkp : StableCheckpoint) (out : List Output) : Prop where
  /-- The application starts with the initial checkpoint. -/
  starts : out.head? = some (.restoreState startingChkp)
  /-- A delivered certificate has the next sequence number, or that of the checkpoint just
  restored. -/
  consecutive : ∀ pre sn cert empty post, out = pre ++ .deliverCert sn cert empty :: post →
    expected pre = some sn
  /-- Restoring a checkpoint moves forward. -/
  forward : ∀ pre chkp post n, out = pre ++ .restoreState chkp :: post → expected pre = some n →
    n ≤ chkp.sn
  nodup : (delivered out).Nodup
  /-- A delivered certificate is of some epoch. -/
  ofEpoch : ∀ sn ∈ delivered out, ∃ epoch, SegmentOf out epoch sn
  /-- A certificate of an epoch is delivered after the epoch has started and before a later one
  does, and after its checkpoint. -/
  framed : ∀ pre sn cert empty post epoch, out = pre ++ .deliverCert sn cert empty :: post →
    SegmentOf out epoch sn →
    .newEpoch epoch ∈ pre ∧ (∀ later, epoch < later → .newEpoch later ∉ pre) ∧
      HasCheckpoint pre epoch

/-! ### Runs -/

/-- ISS has created the orderer of a segment with the given sequence number. -/
def Instance.orders (i : Instance) (epoch : EpochNr) (k : ℕ) (sn : SeqNr) : Bool :=
  i.out.any fun
    | .newOrderer id seg => decide (id = .segment epoch k ∧ sn ∈ seg.proposals.keys)
    | _ => false

/-- ISS has created the module that makes the checkpoint with which an epoch starts, from the given
sequence number on. -/
def Instance.records (i : Instance) (epoch : EpochNr) (sn : SeqNr) : Bool :=
  i.out.any fun
    | .newCheckpoint params =>
      decide (params.epochConfig.epochNr = epoch ∧ params.epochConfig.firstSn = sn)
    | _ => false

/-- ISS has asked the availability module to verify a certificate. -/
def Instance.requests (i : Instance) (context : VerifyCertContext) : Bool :=
  i.out.any fun
    | .verifyCert _ _ c => decide (c = context)
    | _ => false

/-- What the other modules of the node send to ISS: an orderer delivers sequence numbers of its own
segment, and the orderer of a checkpoint that of its epoch; certificates are verified, configurations
announced and checkpoints validated when ISS has asked for it. -/
def Instance.expects (env : Env) (i : Instance) : Event → Bool
  | .sbDeliver sn _ _ _ (.segment epoch k) => i.orders epoch k sn
  | .sbDeliver _ data _ _ (.chkp epoch) =>
    (env.deserialize data).any fun chkp =>
      decide (chkp.epoch = .ok epoch) && i.records epoch chkp.sn
  | .certVerified _ context => i.requests context
  | .newConfig epoch _ => decide (.newEpoch epoch ∈ i.out)
  | .checkpointValidated none chkp => i.validated env chkp
  | _ => true

/-- A run of ISS on a list of events, each of which `Allowed` lets arrive. -/
inductive Run (env : Env) (startingChkp : StableCheckpoint) (Allowed : Instance → Event → Prop) :
    List Event → Instance → Prop
  | start {sorts : Sorts} {i i' : Instance} (hnew : new env startingChkp = .ok (some i))
      (hinit : uponInit env sorts i = .ok i') : Run env startingChkp Allowed [] i'
  | step {sorts : Sorts} {evs : List Event} {i : Instance} {ev : Event} {i' : Instance}
      (hi : Run env startingChkp Allowed evs i) (hev : Allowed i ev)
      (hstep : step env sorts i ev = .ok i') : Run env startingChkp Allowed (evs ++ [ev]) i'

/-- No orderer delivers a sequence number twice, and each epoch is answered by one configuration. -/
def AtMostOnce (evs : List Event) : Prop :=
  (evs.filterMap fun
    | .sbDeliver sn _ _ _ id => some (Sum.inl (sn, id))
    | .newConfig epoch _ => some (Sum.inr epoch)
    | _ => none).Nodup

/-- The sequence numbers of the current epoch do not overflow, nor do the epoch numbers. -/
def Instance.Regular (env : Env) (i : Instance) : Prop := i.Fits env ∧ i.InRange

/-- A checkpoint that is about to be installed starts at or after the end of the current epoch. -/
def Instance.InstallsAhead (i : Instance) (ev : Event) : Prop :=
  ∀ chkp epoch, ev = .checkpointValidated none chkp → chkp.epoch = .ok epoch →
    ¬ membershipOffset epoch i.state.epoch.nr ≤ 0 → i.state.newEpochSN ≤ chkp.sn

/-! ### What has been delivered -/

/-- A delivery or a restored checkpoint comes when it is due. -/
def InPlace (pre : List Output) : Output → Prop
  | .deliverCert sn _ _ => expected pre = some sn ∧ ∃ epoch, SegmentOf pre epoch sn ∧
      .newEpoch epoch ∈ pre ∧ (∀ e, .newEpoch e ∈ pre → e ≤ epoch) ∧ HasCheckpoint pre epoch
  | .restoreState chkp => ∀ n, expected pre = some n → n ≤ chkp.sn
  | _ => True

/-- The application neither gets a certificate nor restores a checkpoint. -/
def Output.isSilent : Output → Bool
  | .restoreState _ => false
  | .deliverCert _ _ _ => false
  | _ => true

/-- The deliveries so far are in place, and the application expects the given sequence number. -/
structure DeliveredUpTo (startingChkp : StableCheckpoint) (out : List Output) (next : SeqNr) :
    Prop where
  starts : out.head? = some (.restoreState startingChkp)
  inPlace : Each InPlace out
  expected : expected out = some next
  below : ∀ sn ∈ delivered out, sn < next
  nodup : (delivered out).Nodup

variable {env : Env} {startingChkp chkp : StableCheckpoint} {i : Instance} {evs : List Event}
  {out os : List Output}

section Delivered

variable {next : SeqNr}

theorem delivered_of_silent (hos : ∀ o ∈ os, o.isSilent = true) : delivered os = [] := by
  refine List.filterMap_eq_nil_iff.mpr fun o ho => ?_
  have hsilent := hos o ho
  cases o <;> first | rfl | cases hsilent

theorem expected_append_of_silent (hos : ∀ o ∈ os, o.isSilent = true) :
    expected (out ++ os) = expected out := by
  induction os using List.reverseRecOn with
  | nil => rw [List.append_nil]
  | append_singleton os o ih =>
    have hsilent := hos o (by simp)
    rw [← ih fun o' ho' => hos o' (List.mem_append_left _ ho'), ← List.append_assoc, expected,
      List.foldl_append, ← expected]
    cases o <;> first | rfl | cases hsilent

theorem deliveredUpTo_start (startingChkp : StableCheckpoint) :
    DeliveredUpTo startingChkp [.restoreState startingChkp] startingChkp.sn := by
  refine ⟨rfl, ?_, rfl, ?_, List.nodup_nil⟩
  · exact each_nil.concat fun n hn => by cases hn
  · intro sn hsn
    cases hsn

namespace DeliveredUpTo

variable (h : DeliveredUpTo startingChkp out next)

include h

theorem head?_append (os : List Output) :
    (out ++ os).head? = some (.restoreState startingChkp) := by
  rw [List.head?_append, h.starts, Option.some_or]

theorem silent (hos : ∀ o ∈ os, o.isSilent = true) :
    DeliveredUpTo startingChkp (out ++ os) next := by
  have hdelivered : delivered (out ++ os) = delivered out := by
    rw [delivered, List.filterMap_append]
    exact (congrArg (_ ++ ·) (delivered_of_silent hos)).trans (List.append_nil _)
  refine ⟨h.head?_append os, h.inPlace.append fun o ho pre => ?_, ?_, ?_, ?_⟩
  · have hsilent := hos o ho
    cases o <;> trivial
  · rw [expected_append_of_silent hos, h.expected]
  · rw [hdelivered]
    exact h.below
  · rw [hdelivered]
    exact h.nodup

theorem restore (hle : next ≤ chkp.sn) :
    DeliveredUpTo startingChkp (out ++ [.restoreState chkp]) chkp.sn := by
  have hdelivered : delivered (out ++ [.restoreState chkp]) = delivered out := by
    simp [delivered]
  refine ⟨h.head?_append _, h.inPlace.concat fun n hn => ?_, ?_, ?_, ?_⟩
  · rw [h.expected, Option.some.injEq] at hn
    exact hn ▸ hle
  · rw [Iss.expected, List.foldl_append]
    rfl
  · intro sn hsn
    rw [hdelivered] at hsn
    exact UInt64.lt_of_lt_of_le (h.below sn hsn) hle
  · rw [hdelivered]
    exact h.nodup

theorem deliver {cert : Cert} {empty : Bool} (hlt : next < next + 1)
    (hplace : InPlace out (.deliverCert next cert empty)) :
    DeliveredUpTo startingChkp (out ++ [.deliverCert next cert empty]) (next + 1) := by
  have hdelivered : delivered (out ++ [.deliverCert next cert empty]) = delivered out ++ [next] := by
    simp [delivered]
  refine ⟨h.head?_append _, h.inPlace.concat hplace, ?_, ?_, ?_⟩
  · rw [Iss.expected, List.foldl_append]
    rfl
  · rw [hdelivered]
    exact forall_mem_concat (fun sn hsn => UInt64.lt_trans (h.below sn hsn) hlt) hlt
  · rw [hdelivered]
    refine List.nodup_append.mpr ⟨h.nodup, List.nodup_singleton _, ?_⟩
    rintro a ha b hb rfl
    rw [List.mem_singleton] at hb
    exact UInt64.lt_irrefl _ (hb ▸ h.below a ha)

end DeliveredUpTo

end Delivered

/-! ### The invariant -/

/-- The epoch with the given number has not started, and will start at the given sequence number:
everything so far is about earlier epochs and earlier sequence numbers. -/
structure EpochsBelow (out : List Output) (nr : EpochNr) (first : SeqNr) : Prop where
  epochs : ∀ e, .newEpoch e ∈ out → e < nr
  segments : ∀ e sn, SegmentOf out e sn → e < nr ∧ sn < first
  disjoint : ∀ e e' sn, SegmentOf out e sn → SegmentOf out e' sn → e = e'
  requested : ∀ e cert context, .verifyCert e cert context ∈ out → ∃ e', SegmentOf out e' context.sn
  recorded : ∀ params, .newCheckpoint params ∈ out →
    params.epochConfig.epochNr < nr ∧ params.epochConfig.firstSn < first

/-- A sequence number is where an earlier epoch started, or where this one does. -/
def StartsBy (nr : EpochNr) (first : SeqNr) (e : EpochNr) (sn : SeqNr) : Prop :=
  e < nr ∧ sn < first ∨ e = nr ∧ sn = first

/-- A checkpoint is that of an earlier epoch or of this one, and the application has it. -/
def StableBy (out : List Output) (nr : EpochNr) (first : SeqNr) (chkp : StableCheckpoint) : Prop :=
  ∃ e, chkp.epoch = .ok e ∧ (.stableCheckpoint chkp ∈ out ∨ .restoreState chkp ∈ out) ∧
    StartsBy nr first e chkp.sn

/-- The position of an instance in the order of deliveries. -/
structure Ordered (startingChkp : StableCheckpoint) (i : Instance) : Prop where
  delivered : DeliveredUpTo startingChkp i.out i.state.nextDeliveredSN
  after : i.state.epoch.firstSN ≤ i.state.nextDeliveredSN
  upTo : i.state.nextDeliveredSN ≤ i.state.newEpochSN
  nonempty : i.state.epoch.firstSN < i.state.newEpochSN
  started : .newEpoch i.state.epoch.nr ∈ i.out
  epochs : ∀ e, .newEpoch e ∈ i.out → e ≤ i.state.epoch.nr
  segments : ∀ e sn, SegmentOf i.out e sn → e < i.state.epoch.nr ∧ sn < i.state.epoch.firstSN ∨
    e = i.state.epoch.nr ∧ i.state.epoch.firstSN ≤ sn ∧ sn < i.state.newEpochSN
  covered : ∀ sn, i.state.epoch.firstSN ≤ sn → sn < i.state.newEpochSN →
    SegmentOf i.out i.state.epoch.nr sn
  disjoint : ∀ e e' sn, SegmentOf i.out e sn → SegmentOf i.out e' sn → e = e'
  requested : ∀ e cert context, .verifyCert e cert context ∈ i.out →
    ∃ e', SegmentOf i.out e' context.sn
  recorded : ∀ params, .newCheckpoint params ∈ i.out → StartsBy i.state.epoch.nr
    i.state.epoch.firstSN params.epochConfig.epochNr params.epochConfig.firstSn
  committed : ∀ sn ∈ i.state.commitLog.keys, sn < i.state.newEpochSN
  stable : StableBy i.out i.state.epoch.nr i.state.epoch.firstSN i.state.lastStableCheckpoint

/-- Events that are emitted within an epoch. -/
def Unrelated (out : List Output) : Output → Prop
  | .newEpoch _ => False
  | .newOrderer (.segment _ _) _ => False
  | .newCheckpoint _ => False
  | .verifyCert _ _ context => ∃ e, SegmentOf out e context.sn
  | _ => True

section Emitting

variable {e : EpochNr} {sn : SeqNr}

theorem unrelated_of_isAuxiliary {o : Output} (h : o.isAuxiliary = true) : Unrelated out o := by
  unfold Output.isAuxiliary at h
  split at h <;> trivial

theorem isSilent_of_isAuxiliary {o : Output} (h : o.isAuxiliary = true) : o.isSilent = true := by
  unfold Output.isAuxiliary at h
  split at h <;> trivial

theorem SegmentOf.append (h : SegmentOf out e sn) : SegmentOf (out ++ os) e sn := by
  obtain ⟨k, seg, hmem, hsn⟩ := h
  exact ⟨k, seg, List.mem_append_left _ hmem, hsn⟩

theorem segmentOf_append_iff :
    SegmentOf (out ++ os) e sn ↔ SegmentOf out e sn ∨ SegmentOf os e sn := by
  simp only [SegmentOf, List.mem_append, or_and_right, exists_or]

theorem not_segmentOf_of_unrelated (hos : ∀ o ∈ os, Unrelated out o) : ¬ SegmentOf os e sn := by
  rintro ⟨k, seg, hmem, -⟩
  exact hos _ hmem

theorem StableBy.append {nr : EpochNr} {first : SeqNr} (h : StableBy out nr first chkp) :
    StableBy (out ++ os) nr first chkp := by
  obtain ⟨e, hepoch, hmem, hstarts⟩ := h
  exact ⟨e, hepoch, hmem.imp (List.mem_append_left _) (List.mem_append_left _), hstarts⟩

end Emitting

section Steps

variable {sorts : Sorts} {j : Instance}

/-- Steps within an epoch. -/
theorem Ordered.within (h : Ordered startingChkp i) (hepoch : SameEpoch i j) {os : List Output}
    (hout : j.out = i.out ++ os) (hos : ∀ o ∈ os, Unrelated i.out o)
    (hdelivered : DeliveredUpTo startingChkp j.out j.state.nextDeliveredSN)
    (hafter : i.state.nextDeliveredSN ≤ j.state.nextDeliveredSN)
    (hupTo : j.state.nextDeliveredSN ≤ i.state.newEpochSN)
    (hcommitted : ∀ sn ∈ j.state.commitLog.keys, sn < i.state.newEpochSN)
    (hstable : StableBy (i.out ++ os) i.state.epoch.nr i.state.epoch.firstSN
      j.state.lastStableCheckpoint) : Ordered startingChkp j := by
  obtain ⟨hepoch, hend⟩ := hepoch
  have hseg : ∀ {e sn}, SegmentOf j.out e sn ↔ SegmentOf i.out e sn := by
    intro e sn
    rw [hout, segmentOf_append_iff, or_iff_left (not_segmentOf_of_unrelated hos)]
  -- what is not unrelated was emitted before
  have hback : ∀ {o}, ¬ Unrelated i.out o → o ∈ j.out → o ∈ i.out := by
    intro o ho hmem
    rw [hout, List.mem_append] at hmem
    exact hmem.resolve_right fun hos' => ho (hos o hos')
  refine ⟨hdelivered, ?after, ?upTo, ?nonempty, ?started, ?epochs, ?segments, ?covered, ?disjoint,
    ?requested, ?recorded, ?committed, ?stable⟩ <;> simp only [hepoch, hend, hseg]
  case after => exact UInt64.le_trans h.after hafter
  case upTo => exact hupTo
  case nonempty => exact h.nonempty
  case started =>
    rw [hout]
    exact List.mem_append_left _ h.started
  case epochs => exact fun e he => h.epochs e (hback id he)
  case segments => exact h.segments
  case covered => exact h.covered
  case disjoint => exact h.disjoint
  case requested =>
    intro e cert context hmem
    rw [hout, List.mem_append] at hmem
    exact hmem.elim (h.requested e cert context) (hos _)
  case recorded => exact fun params hmem => h.recorded params (hback id hmem)
  case committed => exact hcommitted
  case stable =>
    rw [hout]
    exact hstable

/-- Steps within an epoch that deliver nothing. -/
theorem Ordered.frame (h : Ordered startingChkp i) (hepoch : SameEpoch i j)
    (hnext : j.state.nextDeliveredSN = i.state.nextDeliveredSN) {os : List Output}
    (hout : j.out = i.out ++ os) (hos : ∀ o ∈ os, Unrelated i.out o ∧ o.isSilent = true)
    (hcommitted : ∀ sn ∈ j.state.commitLog.keys, sn < i.state.newEpochSN)
    (hstable : StableBy (i.out ++ os) i.state.epoch.nr i.state.epoch.firstSN
      j.state.lastStableCheckpoint) : Ordered startingChkp j := by
  refine h.within hepoch hout (fun o ho => (hos o ho).1) ?_ ?_ ?_ hcommitted hstable
  · rw [hout, hnext]
    exact h.delivered.silent fun o ho => (hos o ho).2
  · rw [hnext]
    exact UInt64.le_refl _
  · rw [hnext]
    exact h.upTo

/-- Everything in an instance is about epochs before a later one. -/
theorem Ordered.epochsBelow (h : Ordered startingChkp i) {nr : EpochNr} {first : SeqNr}
    (hnr : i.state.epoch.nr < nr) (hfirst : i.state.newEpochSN ≤ first) :
    EpochsBelow i.out nr first := by
  have hbelow : i.state.epoch.firstSN < first := UInt64.lt_of_lt_of_le h.nonempty hfirst
  refine ⟨fun e he => ?_, fun e sn hsn => ?_, h.disjoint, h.requested, fun params hmem => ?_⟩
  · exact UInt64.lt_of_le_of_lt (h.epochs e he) hnr
  · rcases h.segments e sn hsn with ⟨he, hlt⟩ | ⟨rfl, -, hlt⟩
    · exact ⟨UInt64.lt_trans he hnr, UInt64.lt_trans hlt hbelow⟩
    · exact ⟨hnr, UInt64.lt_of_lt_of_le hlt hfirst⟩
  · rcases h.recorded params hmem with ⟨he, hlt⟩ | ⟨he, hlt⟩
    · exact ⟨UInt64.lt_trans he hnr, UInt64.lt_trans hlt hbelow⟩
    · rw [he, hlt]
      exact ⟨hnr, hbelow⟩

section Due

variable (h : Ordered startingChkp i) {entry : CommitLogEntry}
  (hentry : i.state.commitLog.lookup i.state.nextDeliveredSN = some entry)

include h hentry

/-- The next sequence number is in the current epoch if its entry has been committed. -/
theorem Ordered.next_lt : i.state.nextDeliveredSN < i.state.newEpochSN :=
  h.committed _ (GoMap.mem_keys_iff.mpr ⟨entry, hentry⟩)

/-- **A delivery is due** when the epoch has its checkpoint and the next entry is committed. -/
theorem Ordered.inPlace (hchkp : i.state.hasEpochCheckpoint) (cert : Cert) (empty : Bool) :
    InPlace i.out (.deliverCert i.state.nextDeliveredSN cert empty) := by
  refine ⟨h.delivered.expected, i.state.epoch.nr, h.covered _ h.after (h.next_lt hentry), h.started,
    h.epochs, ?_⟩
  obtain ⟨e, hepoch, hmem, hstarts⟩ := h.stable
  -- an earlier epoch's checkpoint has a smaller sequence number
  have hcurrent : e = i.state.epoch.nr := by
    rcases hstarts with ⟨-, hlt⟩ | ⟨he, -⟩
    · rw [hchkp] at hlt
      exact absurd hlt (UInt64.lt_irrefl _)
    · exact he
  exact ⟨i.state.lastStableCheckpoint, hcurrent ▸ hepoch, hmem⟩

theorem Ordered.deliver (hchkp : i.state.hasEpochCheckpoint) (policy : LeaderPolicy) (cert : Cert)
    (empty : Bool) : Ordered startingChkp ((i.withPolicy policy).deliver cert empty) := by
  have hlt := h.next_lt hentry
  have hnext : i.state.nextDeliveredSN < i.state.nextDeliveredSN + 1 := by grind
  refine h.within ⟨rfl, rfl⟩ rfl ?_ (h.delivered.deliver hnext (h.inPlace hentry hchkp cert empty))
    (UInt64.le_of_lt hnext) ?_ ?_ h.stable.append
  · intro o ho
    rw [List.mem_singleton] at ho
    rw [ho]
    trivial
  · change i.state.nextDeliveredSN + 1 ≤ i.state.newEpochSN
    grind
  · intro sn hsn
    exact h.committed sn (AList.mem_keys.mp (AList.mem_erase.mp (AList.mem_keys.mpr hsn)).2)

end Due

/-- The sequence numbers of the segments of an epoch that starts. -/
theorem segmentOf_ordererOutputs {nr : EpochNr} {segs : List Segment} {index : ℕ} {e : EpochNr}
    {sn : SeqNr} : SegmentOf (ordererOutputs nr index segs) e sn ↔
      e = nr ∧ ∃ seg ∈ segs, sn ∈ seg.proposals.keys := by
  induction segs generalizing index with
  | nil => simp [SegmentOf, ordererOutputs]
  | cons seg segs ih =>
    have hhead : SegmentOf [.newOrderer (.segment nr index) seg] e sn ↔
        e = nr ∧ sn ∈ seg.proposals.keys := by
      simp only [SegmentOf, List.mem_singleton, Output.newOrderer.injEq, OrdererID.segment.injEq]
      constructor
      · rintro ⟨k, seg', ⟨⟨rfl, -⟩, rfl⟩, hsn⟩
        exact ⟨rfl, hsn⟩
      · rintro ⟨rfl, hsn⟩
        exact ⟨index, seg, ⟨⟨rfl, rfl⟩, rfl⟩, hsn⟩
    rw [ordererOutputs, ← List.singleton_append, segmentOf_append_iff, hhead, ih, ← and_or_left,
      List.exists_mem_cons_iff]

/-- Events that are emitted when an epoch starts. -/
def OfEpoch (nr : EpochNr) (first : SeqNr) : Output → Prop
  | .newEpoch e => e = nr
  | .newCheckpoint params =>
    params.epochConfig.epochNr = nr ∧ params.epochConfig.firstSn = first
  | .verifyCert _ _ _ => False
  | .restoreState _ => False
  | .deliverCert _ _ _ => False
  | _ => True

theorem OfEpoch.isSilent {nr : EpochNr} {first : SeqNr} {o : Output} (h : OfEpoch nr first o) :
    o.isSilent = true := by
  cases o <;> trivial

section Starting

variable {nr : EpochNr} {membership : Membership} {leaders : List NodeID} {os : List Output}

/-- The segments after an epoch has started: those before, and those that partition the epoch. -/
theorem segmentOf_started {e : EpochNr} {sn : SeqNr} (hnone : ¬ SegmentOf os e sn)
    (hpart : EpochPartitioned env ((i.started env nr membership leaders).emitAll os)) :
    SegmentOf ((i.started env nr membership leaders).emitAll os).out e sn ↔
      SegmentOf i.out e sn ∨ e = nr ∧ i.state.newEpochSN ≤ sn ∧
        sn < (i.started env nr membership leaders).state.newEpochSN := by
  have hunion := hpart.union sn
  have hentered : ¬ SegmentOf [.newEpoch nr, .newAvailability nr membership
      (Int64.ofInt env.params.segmentLength).toUInt64, .computeCert nr] e sn := by
    simp [SegmentOf]
  simp only [Instance.started, Instance.addAll, Instance.enterEpoch, Instance.emitAll_state,
    List.nil_append] at hunion
  simp only [Instance.emitAll_out, Instance.started, Instance.addAll, Instance.enterEpoch,
    segmentOf_append_iff, segmentOf_ordererOutputs, hunion, or_iff_left hnone,
    or_iff_left hentered]

/-- The events that starting an epoch emits are of this epoch. -/
theorem exists_out_started (env : Env) (i : Instance) (nr : EpochNr) (membership : Membership)
    (leaders : List NodeID) (first : SeqNr) :
    ∃ os, (i.started env nr membership leaders).out = i.out ++ os ∧ .newEpoch nr ∈ os ∧
      ∀ o ∈ os, OfEpoch nr first o := by
  refine ⟨[.newEpoch nr, .newAvailability nr membership
    (Int64.ofInt env.params.segmentLength).toUInt64, .computeCert nr] ++ ordererOutputs nr 0
      (segmentsFrom env i.state.nextDeliveredSN membership leaders.length 0 leaders), ?_, ?_, ?_⟩
  · simp [Instance.started, Instance.addAll, Instance.enterEpoch]
  · simp
  · intro o ho
    simp only [List.mem_append, List.mem_cons, List.not_mem_nil, or_false] at ho
    rcases ho with (rfl | rfl | rfl) | ho
    · exact rfl
    · trivial
    · trivial
    · obtain ⟨k, seg, rfl, -⟩ := mem_ordererOutputs ho
      trivial

/-- **Starting an epoch** after everything that belongs to earlier ones. -/
theorem ordered_started {first : SeqNr} (hbelow : EpochsBelow i.out nr first)
    (hdelivered : DeliveredUpTo startingChkp i.out first)
    (hnext : i.state.nextDeliveredSN = first) (hend : i.state.newEpochSN = first)
    (hcommitted : ∀ sn ∈ i.state.commitLog.keys, sn < first)
    (hstable : StableBy i.out nr first i.state.lastStableCheckpoint)
    (hos : ∀ o ∈ os, OfEpoch nr first o) (hnone : ∀ {e sn}, ¬ SegmentOf os e sn)
    (hpart : EpochPartitioned env ((i.started env nr membership leaders).emitAll os)) :
    Ordered startingChkp ((i.started env nr membership leaders).emitAll os) := by
  subst hend
  obtain ⟨os', hstarted, hepoch, hos'⟩ :=
    exists_out_started env i nr membership leaders i.state.newEpochSN
  have hout : ((i.started env nr membership leaders).emitAll os).out = i.out ++ (os' ++ os) := by
    rw [Instance.emitAll_out, hstarted, List.append_assoc]
  have hof : ∀ o ∈ os' ++ os, OfEpoch nr i.state.newEpochSN o := fun o ho =>
    (List.mem_append.mp ho).elim (hos' o) (hos o)
  have hlt : i.state.newEpochSN < (i.started env nr membership leaders).state.newEpochSN :=
    hpart.nonempty
  have hseg : ∀ {e sn}, SegmentOf ((i.started env nr membership leaders).emitAll os).out e sn ↔
      SegmentOf i.out e sn ∨ e = nr ∧ i.state.newEpochSN ≤ sn ∧
        sn < (i.started env nr membership leaders).state.newEpochSN :=
    segmentOf_started hnone hpart
  refine ⟨?delivered, ?after, ?upTo, hlt, ?started, ?epochs, ?segments, ?covered, ?disjoint,
    ?requested, ?recorded, ?committed, ?stable⟩
  case delivered =>
    rw [hout, Instance.emitAll_state]
    change DeliveredUpTo startingChkp _ i.state.nextDeliveredSN
    rw [hnext]
    exact hdelivered.silent fun o ho => (hof o ho).isSilent
  case after => exact UInt64.le_of_eq hnext.symm
  case upTo => exact hnext ▸ UInt64.le_of_lt hlt
  case started =>
    rw [hout]
    exact List.mem_append_right _ (List.mem_append_left _ hepoch)
  case epochs =>
    intro e he
    rw [hout, List.mem_append] at he
    rcases he with he | he
    · exact UInt64.le_of_lt (hbelow.epochs e he)
    · exact UInt64.le_of_eq (hof _ he)
  case segments =>
    intro e sn hsn
    exact (hseg.mp hsn).imp (hbelow.segments e sn) id
  case covered => exact fun sn hle hlt => hseg.mpr (.inr ⟨rfl, hle, hlt⟩)
  case disjoint =>
    intro e e' sn hsn hsn'
    rcases hseg.mp hsn with h | ⟨rfl, hge, -⟩ <;> rcases hseg.mp hsn' with h' | ⟨rfl, hge', -⟩
    · exact hbelow.disjoint e e' sn h h'
    · exact absurd (hbelow.segments e sn h).2 (UInt64.not_lt.mpr hge')
    · exact absurd (hbelow.segments e' sn h').2 (UInt64.not_lt.mpr hge)
    · rfl
  case requested =>
    intro e cert context hmem
    rw [hout, List.mem_append] at hmem
    obtain ⟨e', h⟩ := hbelow.requested e cert context (hmem.resolve_right fun h => hof _ h)
    exact ⟨e', hseg.mpr (.inl h)⟩
  case recorded =>
    intro params hmem
    rw [hout, List.mem_append] at hmem
    exact hmem.imp (hbelow.recorded params) fun h => hof (.newCheckpoint params) h
  case committed => exact fun sn hsn => UInt64.lt_trans (hcommitted sn hsn) hlt
  case stable =>
    rw [hout]
    exact hstable.append

end Starting

theorem Ordered.advance (h : Ordered startingChkp i) (hfin : i.state.epochFinished)
    (hj : advanceEpoch env sorts i = .ok j) (hnr : i.state.epoch.nr < i.state.epoch.nr + 1)
    (hpart : EpochPartitioned env j) : Ordered startingChkp j := by
  obtain ⟨old, next, memberships, membership, leaders, rfl, -⟩ := advanceEpoch_eq_ok hj
  obtain ⟨hend, -, -⟩ := hfin
  have hstable : StableBy i.out (i.state.epoch.nr + 1) i.state.newEpochSN
      i.state.lastStableCheckpoint := by
    obtain ⟨e, hepoch, hmem, ⟨he, hlt⟩ | ⟨rfl, hsn⟩⟩ := h.stable
    · exact ⟨e, hepoch, hmem, .inl ⟨UInt64.lt_trans he hnr, UInt64.lt_trans hlt h.nonempty⟩⟩
    · exact ⟨_, hepoch, hmem, .inl ⟨hnr, hsn ▸ h.nonempty⟩⟩
  refine ordered_started (i := i.shiftMemberships memberships membership)
    (h.epochsBelow hnr (UInt64.le_refl _)) (hend ▸ h.delivered) hend rfl h.committed hstable ?_
    (by simp [SegmentOf]) hpart
  intro o ho
  simp only [List.mem_cons, List.not_mem_nil, or_false] at ho
  rcases ho with rfl | rfl
  · exact ⟨rfl, rfl⟩
  · trivial

theorem Ordered.install (h : Ordered startingChkp i) {policy : LeaderPolicy} {epoch : EpochNr}
    (hepoch : chkp.epoch = .ok epoch)
    (hnr : i.state.epoch.nr < epoch) (hsn : i.state.newEpochSN ≤ chkp.sn)
    (hj : install env sorts chkp policy i = .ok j) (hpart : EpochPartitioned env j) :
    Ordered startingChkp j := by
  obtain ⟨e, memberships, membership, leaders, rfl, he, -⟩ := install_eq_ok hj
  obtain rfl : epoch = e := Except.ok.inj (hepoch.symm.trans he)
  have hdelivered : DeliveredUpTo startingChkp (i.out ++ [.restoreState chkp]) chkp.sn :=
    h.delivered.restore (UInt64.le_trans h.upTo hsn)
  have hbelow : EpochsBelow (i.out ++ [.restoreState chkp]) epoch chkp.sn := by
    have hseg : ∀ {e sn}, SegmentOf (i.out ++ [.restoreState chkp]) e sn ↔ SegmentOf i.out e sn := by
      simp [SegmentOf]
    obtain ⟨hepochs, hsegments, hdisjoint, hrequested, hrecorded⟩ := h.epochsBelow hnr hsn
    constructor <;> simpa [hseg]
  refine ordered_started (i := i.restore chkp policy memberships) hbelow hdelivered rfl rfl ?_ ?_ ?_
    (by simp [SegmentOf, installOutputs]) hpart
  · intro sn hmem
    cases hmem
  · exact ⟨epoch, hepoch, .inr (List.mem_append_right _ List.mem_cons_self), .inr ⟨rfl, rfl⟩⟩
  · intro o ho
    simp only [installOutputs, List.mem_cons, List.not_mem_nil, or_false] at ho
    rcases ho with rfl | rfl | rfl | rfl | rfl <;> trivial

theorem ordered_start (hnew : new env startingChkp = .ok (some i))
    (hinit : uponInit env sorts i = .ok j) (hpart : EpochPartitioned env j) :
    Ordered startingChkp j := by
  obtain ⟨data, policy, nr, memberships, rfl, -, -, hepoch, -⟩ := new_eq_ok_some hnew
  obtain ⟨nr', hepoch', hinit⟩ := Fallible.bind_eq_ok.mp hinit
  obtain rfl : nr = nr' := Except.ok.inj (hepoch.symm.trans hepoch')
  obtain ⟨membership, logged, leaders, rfl, -⟩ := startEpoch_eq_ok_iff.mp hinit
  have hnil : ∀ j : Instance, j.emitAll [] = j := fun j => by simp [Instance.emitAll]
  rw [← hnil (Instance.started _ _ _ _ _)] at hpart ⊢
  refine ordered_started ?_ (deliveredUpTo_start startingChkp) rfl rfl ?_ ?_ ?_ ?_ hpart
  · constructor <;> simp [SegmentOf, Instance.emit]
  · intro sn hmem
    cases hmem
  · exact ⟨nr, hepoch, .inr List.mem_cons_self, .inr ⟨rfl, rfl⟩⟩
  · simp
  · simp [SegmentOf]

theorem segmentOf_of_orders {e : EpochNr} {k : ℕ} {sn : SeqNr} (h : i.orders e k sn = true) :
    SegmentOf i.out e sn := by
  obtain ⟨o, hmem, ho⟩ := List.any_eq_true.mp h
  cases o with
  | newOrderer id seg =>
    obtain ⟨rfl, hsn⟩ := of_decide_eq_true ho
    exact ⟨k, seg, hmem, hsn⟩
  | _ => cases ho

theorem exists_newCheckpoint_of_records {e : EpochNr} {sn : SeqNr} (h : i.records e sn = true) :
    ∃ params, .newCheckpoint params ∈ i.out ∧ params.epochConfig.epochNr = e ∧
      params.epochConfig.firstSn = sn := by
  obtain ⟨o, hmem, ho⟩ := List.any_eq_true.mp h
  cases o with
  | newCheckpoint params => exact ⟨params, hmem, of_decide_eq_true ho⟩
  | _ => cases ho

theorem exists_verifyCert_of_requests {context : VerifyCertContext}
    (h : i.requests context = true) : ∃ e cert, .verifyCert e cert context ∈ i.out := by
  obtain ⟨o, hmem, ho⟩ := List.any_eq_true.mp h
  cases o with
  | verifyCert e cert c =>
    obtain rfl : c = context := of_decide_eq_true ho
    exact ⟨e, cert, hmem⟩
  | _ => cases ho

/-- Only sequence numbers of segments are committed. -/
theorem Ordered.segmentOf_of_commits (h : Ordered startingChkp i) {ev : Event}
    {entry : CommitLogEntry} (hev : i.expects env ev = true) (hcommits : Commits env ev entry) :
    ∃ e, SegmentOf i.out e entry.sn := by
  have hrequested : ∀ {context}, i.requests context = true → ∃ e, SegmentOf i.out e context.sn := by
    intro context hrequests
    obtain ⟨e, cert, hmem⟩ := exists_verifyCert_of_requests hrequests
    exact h.requested e cert context hmem
  cases hcommits with
  | aborted | unparsable => exact ⟨_, segmentOf_of_orders hev⟩
  | invalid | valid => exact hrequested hev

/-- The checkpoint that the orderer of a checkpoint delivers is that of its epoch. -/
theorem Ordered.stableBy_of_expects (h : Ordered startingChkp i) {sn : SeqNr} {data : Bytes}
    {aborted : Bool} {leader : NodeID} {epoch : EpochNr}
    (hev : i.expects env (.sbDeliver sn data aborted leader (.chkp epoch)) = true)
    (hdata : env.deserialize data = some chkp) :
    StableBy (i.out ++ [.stableCheckpoint chkp]) i.state.epoch.nr i.state.epoch.firstSN chkp := by
  rw [Instance.expects, hdata, Option.any_some, Bool.and_eq_true, decide_eq_true_eq] at hev
  obtain ⟨params, hmem, hnr, hsn⟩ := exists_newCheckpoint_of_records hev.2
  refine ⟨epoch, hev.1, .inl (List.mem_append_right _ List.mem_cons_self), ?_⟩
  rw [← hnr, ← hsn]
  exact h.recorded params hmem

/-- **Every elementary step keeps the order of deliveries**, if the event it belongs to is one that
ISS expects and an installed checkpoint is ahead. -/
theorem Ordered.micro {i₀ : Instance} {ev : Event} (hi₀ : Ordered startingChkp i₀)
    (h : Ordered startingChkp i) (hmicro : Micro env sorts i₀ ev i j)
    (hev : i₀.expects env ev = true) (hahead : i₀.InstallsAhead ev) (hpre : i₀.out <+: i.out)
    (hrange : j.InRange) (hpart : SameEpoch i j ∨ EpochPartitioned env j) :
    Ordered startingChkp j := by
  have hnr : i.state.epoch.nr.toNat < 2 ^ 63 :=
    hrange _ (hmicro.out_grows.subset h.started)
  have hnil : ∀ {o}, o ∈ ([] : List Output) → Unrelated i.out o ∧ o.isSilent = true := by simp
  cases hmicro with
  | suspect | announce =>
    exact h.frame ⟨rfl, rfl⟩ rfl (List.append_nil _).symm (fun o => hnil) h.committed h.stable.append
  | @commit _ entry _ hcommits =>
    refine h.frame ⟨rfl, rfl⟩ rfl (List.append_nil _).symm (fun o => hnil) ?_ h.stable.append
    intro sn hsn
    rcases GoMap.mem_keys_insert.mp hsn with rfl | hsn
    · obtain ⟨e, k, seg, hmem, hkey⟩ := hi₀.segmentOf_of_commits hev hcommits
      rcases h.segments e entry.sn ⟨k, seg, hpre.subset hmem, hkey⟩ with ⟨-, hlt⟩ | ⟨-, -, hlt⟩
      · exact UInt64.lt_trans hlt h.nonempty
      · exact hlt
    · exact h.committed sn hsn
  | deliver hchkp hentry _ _ => exact h.deliver hentry hchkp _ _ _
  | advance hfin hj =>
    have hlt : i.state.epoch.nr < i.state.epoch.nr + 1 := by
      rw [UInt64.lt_iff_toNat_lt, toNat_succ_of_lt hnr]
      omega
    exact h.advance hfin hj hlt (hpart.resolve_left (not_sameEpoch_of_advance hj hnr))
  | requestCert hdata =>
    refine h.frame ⟨rfl, rfl⟩ rfl rfl (fun o ho => ?_) h.committed h.stable.append
    rw [List.mem_singleton.mp ho]
    exact ⟨⟨_, segmentOf_of_orders hev⟩, rfl⟩
  | stabilize hdata hsn =>
    refine h.frame ⟨rfl, rfl⟩ rfl rfl (fun o ho => ?_) h.committed (h.stableBy_of_expects hev hdata)
    rw [List.mem_singleton.mp ho]
    exact ⟨trivial, rfl⟩
  | quiet hos =>
    refine h.frame ⟨rfl, rfl⟩ rfl rfl (fun o ho => ?_) h.committed h.stable.append
    exact ⟨unrelated_of_isAuxiliary (hos o ho), isSilent_of_isAuxiliary (hos o ho)⟩
  | @install chkp epoch data policy _ hepoch hoffset hdata hpolicy hj =>
    have hlt : i.state.epoch.nr.toNat < epoch.toNat :=
      Nat.lt_of_succ_lt (succ_lt_of_install hepoch hoffset hj hnr hrange)
    exact h.install hepoch (UInt64.lt_iff_toNat_lt.mpr hlt) (hahead chkp epoch rfl hepoch hoffset) hj
      (hpart.resolve_left (not_sameEpoch_of_install hepoch hj hlt))

end Steps

/-- A regular instance gets an event that it expects, and a checkpoint that it installs is ahead. -/
def Instance.Proceeds (env : Env) (i : Instance) (ev : Event) : Prop :=
  i.expects env ev = true ∧ i.Regular env ∧ i.InstallsAhead ev

/-- A regular instance at the end of such a run has its place in the order of deliveries. -/
theorem Run.ordered (h : Run env startingChkp (Instance.Proceeds env) evs i) (hi : i.Regular env) :
    Started env i ∧ Ordered startingChkp i := by
  induction h with
  | start hnew hinit =>
    have hstarted := started_of_init hnew hinit
    exact ⟨hstarted, ordered_start hnew hinit (hstarted.epochPartitioned hi.1)⟩
  | @step sorts evs i ev i' _ hev hstep ih =>
    obtain ⟨hexpects, hregular, hahead⟩ := hev
    obtain ⟨hstarted, hordered⟩ := ih hregular
    -- The epoch numbers of an intermediate instance are in range because those of the last one are.
    refine step_invariant (P := fun a => a.InRange → Started env a ∧ Ordered startingChkp a) hstep
      (fun _ => ⟨hstarted, hordered⟩) ?_ hi.2
    intro a b hpre ha hmicro hepoch hrange
    obtain ⟨hsa, hoa⟩ := ha fun e he => hrange e (hmicro.out_grows.subset he)
    have hsb : Started env b := hsa.micro hmicro
    refine ⟨hsb, hordered.micro hoa hmicro hexpects hahead hpre hrange ?_⟩
    refine hepoch.imp_right fun hsame => hsb.epochPartitioned ?_
    rw [Instance.Fits, ← hsame.1]
    exact hi.1

/-- What holds in an ordered instance. -/
theorem Ordered.inOrder (h : Ordered startingChkp i) : InOrder startingChkp i.out := by
  refine ⟨h.delivered.starts, fun pre sn cert empty post hout => ?_,
    fun pre chkp post n hout => h.delivered.inPlace pre _ post hout n, h.delivered.nodup,
    fun sn hsn => ?_, fun pre sn cert empty post epoch hout hseg => ?_⟩
  · exact (h.delivered.inPlace pre _ post hout).1
  · obtain ⟨o, ho, hsome⟩ := List.mem_filterMap.mp hsn
    cases o with
    | deliverCert sn' cert empty =>
      obtain rfl : sn' = sn := Option.some.inj hsome
      obtain ⟨pre, post, hout⟩ := List.append_of_mem ho
      obtain ⟨-, e, hseg, -⟩ := h.delivered.inPlace pre _ post hout
      rw [hout]
      exact ⟨e, hseg.append⟩
    | _ => cases hsome
  · obtain ⟨-, e, hseg', hstarted, hlast, hchkp⟩ := h.delivered.inPlace pre _ post hout
    obtain rfl : epoch = e := h.disjoint epoch e sn hseg (by rw [hout]; exact hseg'.append)
    exact ⟨hstarted, fun later hlt hmem => UInt64.not_lt.mpr (hlast later hmem) hlt, hchkp⟩

/-- **ISS delivers a gap-free total order framed by epochs** in every run in which the other modules
of the node behave as expected, the sequence and epoch numbers do not overflow, and every checkpoint
that is installed starts at or after the end of the current epoch. -/
theorem delivers_in_order (env : Env) (startingChkp : StableCheckpoint) (evs : List Event)
    (i : Instance) (h : Run env startingChkp (Instance.Proceeds env) evs i) (hi : i.Regular env) :
    InOrder startingChkp i.out :=
  (h.ordered hi).2.inOrder

/-! ### Examples -/

theorem exists_run {allow : Instance → Event → Bool} {Allowed : Instance → Event → Prop}
    {Q : Instance → Prop} [DecidablePred Q] (hallow : ∀ {i ev}, allow i ev = true → Allowed i ev)
    (h : (execute env startingChkp (fun i ev => allow i ev = true) (fun _ => True) evs).any
      (fun i => Q i) = true) : ∃ i, Run env startingChkp Allowed evs i ∧ Q i :=
  exists_of_execute (P := Run env startingChkp Allowed) h (fun hnew hinit _ => .start hnew hinit)
    fun hi hev hok _ => .step hi (hallow hev) hok

instance (env : Env) (i : Instance) : Decidable (i.Fits env) :=
  inferInstanceAs (Decidable (_ ∧ _ ∧ _))

/-- Testing an instance and the event that arrives. -/
def Instance.proceeds (env : Env) (i : Instance) (ev : Event) : Bool :=
  i.expects env ev && (decide (i.Fits env) && i.inRange) &&
    match ev with
    | .checkpointValidated none chkp => decide (i.state.newEpochSN ≤ chkp.sn)
    | _ => true

theorem Instance.proceeds_of_test {env : Env} {i : Instance} {ev : Event}
    (h : i.proceeds env ev = true) : i.Proceeds env ev := by
  simp only [Instance.proceeds, Bool.and_eq_true, decide_eq_true_eq] at h
  refine ⟨h.1.1, ⟨h.1.2.1, inRange_of_test h.1.2.2⟩, ?_⟩
  rintro chkp epoch rfl - -
  exact of_decide_eq_true h.2

/-- A node executes epochs 0 and 1, restores epoch 5 from a checkpoint, and continues there. -/
theorem delivers_in_order_restored : ∃ evs i,
    Run soloEnv (exampleChkp soloMembership 0 0 simplePolicyData) (Instance.Proceeds soloEnv) evs i ∧
    delivered i.out = [0, 1, 7] ∧
    InOrder (exampleChkp soloMembership 0 0 simplePolicyData) i.out := by
  obtain ⟨i, hi, hdelivered, hfits, hrange⟩ := exists_run Instance.proceeds_of_test
    (by decide +kernel :
      (execute soloEnv (exampleChkp soloMembership 0 0 simplePolicyData)
        (fun i ev => i.proceeds soloEnv ev = true) (fun _ => True) (twoEpochs soloMembership ++
          [.stableCheckpointReceived [98] (exampleChkp soloMembership 5 7 simplePolicyData),
            .checkpointValidated none (exampleChkp soloMembership 5 7 simplePolicyData),
            .sbDeliver 7 [2] false [97] (.segment 5 0),
            .certVerified true ⟨7, [2], false, [97]⟩])).any
        (fun i => delivered i.out = [0, 1, 7] ∧ i.Fits soloEnv ∧ i.inRange = true) = true)
  exact ⟨_, i, hi, hdelivered,
    delivers_in_order _ _ _ i hi ⟨hfits, Instance.inRange_of_test hrange⟩⟩

/-- **A forged checkpoint makes ISS deliver a sequence number twice**: a checkpoint of a later epoch
with sequence number 0, signed by the membership that it lists itself, passes the permissive
validator. -/
theorem delivered_twice : ¬ ∀ env startingChkp evs i,
    Run env startingChkp (fun i ev => i.expects env ev = true) evs i → AtMostOnce evs →
    InOrder startingChkp i.out := by
  intro hall
  let forged := exampleChkp soloMembership 10 0 simplePolicyData
  let evs : List Event :=
    [.sbDeliver 0 [2] false [97] (.segment 0 0), .certVerified true ⟨0, [2], false, [97]⟩,
      .stableCheckpointReceived [98] forged, .checkpointValidated none forged,
      .sbDeliver 0 [2] false [97] (.segment 10 0), .certVerified true ⟨0, [2], false, [97]⟩]
  obtain ⟨i, hi, hdelivered⟩ := exists_run id (by decide +kernel :
    (execute soloEnv (exampleChkp soloMembership 0 0 simplePolicyData)
      (fun i ev => i.expects soloEnv ev = true) (fun _ => True) evs).any
        (fun i => delivered i.out = [0, 0]) = true)
  have hnodup := (hall _ _ evs i hi (by unfold AtMostOnce; decide)).nodup
  rw [hdelivered] at hnodup
  exact absurd hnodup (by decide)

end Mir.Iss
