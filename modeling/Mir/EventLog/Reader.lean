import Mir.Go.Basic
import Mir.Lib.Varint

/-!
# Reading event logs

`eventlog.Reader`: a log is a sequence of entries, each of them behind its size. The reader takes the
end of the input for the end of the log, and it recognises the end of the input by an error that may
have been wrapped. This error is also reported when the input ends inside an entry.

`readAllEvents_reports_iff` says which damage the reader reports: a log that ends inside a size, and a
size of too many bytes. A log that ends inside an entry, but behind its size, is read as a shorter log,
and a size that is negative or too large makes the reader panic.

The protobuf encoding of the entries and the compression of the log are not modelled. What is assumed
about the libraries is in `Format`.
-/

namespace Mir.EventLog

/-! ### Errors -/

/-- The error at the bottom of a chain of wrapped errors. -/
inductive Cause
  | eof
  | unexpectedEOF
  | overflow
  | unmarshal
  deriving DecidableEq

/-- An error and the messages it was wrapped in, the last one first. -/
structure ReadError where
  messages : List String
  cause : Cause
  deriving DecidableEq

/-- `errors.WithMessage`. -/
def ReadError.withMessage (err : ReadError) (message : String) : ReadError :=
  { err with messages := message :: err.messages }

/-- `errors.Is(err, io.EOF)`. -/
def ReadError.isEOF (err : ReadError) : Bool := err.cause = .eof

/-- How a call ends. -/
inductive Outcome (α : Type)
  | returned (a : α)
  | failed (err : ReadError)
  | panicked
  deriving DecidableEq

/-! ### The reader -/

/-- `recordingpb.Entry` with its protobuf encoding, and what else depends on the libraries: the size up
to which a buffer can grow, and the error of `binary.ReadVarint` for an input that ends inside a number
(`io.EOF` before Go 1.19, `io.ErrUnexpectedEOF` since then). -/
structure Format (Entry Event : Type) where
  marshal : Entry → Bytes
  unmarshal : Bytes → Option Entry
  events : Entry → List Event
  growLimit : ℕ
  partialPrefix : Cause
  unmarshal_marshal : ∀ e, unmarshal (marshal e) = some e
  marshal_le : ∀ e, (marshal e).length ≤ growLimit
  growLimit_lt : growLimit < 2 ^ 63

/-- `eventlog.Reader`: its buffer, and what is left of its source. -/
structure Reader where
  buffer : Bytes
  source : Bytes
  deriving DecidableEq

namespace Format

variable {Entry Event : Type} (F : Format Entry Event)

/-- The error that `binary.ReadVarint` returns. -/
def varintCause : Varint.ReadError → Cause
  | .empty => .eof
  | .truncated => F.partialPrefix
  | .overflow => .overflow

/-- `readSizePrefixedProto`. -/
def readSizePrefixedProto (r : Reader) : Outcome (Entry × Reader) :=
  match Varint.readInt r.source with
  | .error err =>
    let err : ReadError := ⟨[], F.varintCause err⟩
    .failed (if err.isEOF then err else err.withMessage "could not read size prefix")
  | .ok (l, source) =>
    if l < 0 ∨ (F.growLimit : ℤ) < l then .panicked -- buffer.Grow
    else if source.length < l.toNat then
      .failed (ReadError.withMessage ⟨[], .eof⟩ "could not read message")
    else
      let buffer := r.buffer ++ source.take l.toNat
      match F.unmarshal buffer with
      | none => .failed (ReadError.withMessage ⟨[], .unmarshal⟩ "could not unmarshal message")
      | some entry => .returned (entry, ⟨buffer, source.drop l.toNat⟩)

/-- `ReadEntry`. -/
def readEntry (r : Reader) : Outcome (Entry × Reader) :=
  match F.readSizePrefixedProto r with
  | .panicked => .panicked
  | .failed err => .failed (if err.isEOF then err else err.withMessage "error reading event")
  | .returned (entry, r) => .returned (entry, { r with buffer := [] })

variable {F} {r r' : Reader} {entry e : Entry} {es : List Entry} {p s : Bytes}

theorem length_lt_of_readEntry (h : F.readEntry r = .returned (entry, r')) :
    r'.source.length < r.source.length := by
  rw [readEntry, readSizePrefixedProto] at h
  cases hread : Varint.readInt r.source with
  | error err =>
    rw [hread] at h
    cases h
  | ok result =>
    obtain ⟨l, source⟩ := result
    have hlt := Varint.length_lt_of_readInt hread
    simp only [hread] at h
    split_ifs at h
    cases hentry : F.unmarshal (r.buffer ++ source.take l.toNat) with
    | none =>
      rw [hentry] at h
      cases h
    | some x =>
      rw [hentry] at h
      cases h
      simp only [List.length_drop]
      omega

variable (F) in
/-- The loop of `ReadAllEvents`. -/
def readAllFrom (r : Reader) (allEvents : List Event) : Outcome (List Event) :=
  match h : F.readEntry r with
  | .panicked => .panicked
  | .failed err => if err.isEOF then .returned allEvents else .failed err
  | .returned (entry, r') => readAllFrom r' (allEvents ++ F.events entry)
termination_by r.source.length
decreasing_by exact length_lt_of_readEntry h

variable (F) in
/-- `ReadAllEvents` of a new reader. -/
def readAllEvents (source : Bytes) : Outcome (List Event) := F.readAllFrom ⟨[], source⟩ []

/-! ### Logs -/

variable (F) in
/-- The size in front of an entry. -/
def sizePrefix (e : Entry) : Bytes := Varint.encodeInt (F.marshal e).length

variable (F) in
/-- `writeSizePrefixedProto`. -/
def writeSizePrefixedProto (e : Entry) : Bytes := F.sizePrefix e ++ F.marshal e

variable (F) in
/-- The log with the given entries. -/
def log (es : List Entry) : Bytes := es.flatMap F.writeSizePrefixedProto

variable (F) in
/-- A log that is damaged behind some entries: it ends inside an entry, or there is a size that is
negative, larger than a buffer can be, or larger than the rest of the log. -/
inductive Damaged : Bytes → Prop
  | truncated (es : List Entry) {e : Entry} {p rest : Bytes} (hp : p ≠ []) (hrest : rest ≠ [])
      (hsplit : F.writeSizePrefixedProto e = p ++ rest) : Damaged (F.log es ++ p)
  | badSize (es : List Entry) {l : ℤ} {bytes rest : Bytes}
      (hread : Varint.readInt bytes = .ok (l, rest))
      (hbad : l < 0 ∨ (F.growLimit : ℤ) < l ∨ (rest.length : ℤ) < l) : Damaged (F.log es ++ bytes)
  | overlong (es : List Entry) (rest : Bytes) (h : Varint.readInt rest = .error .overflow) :
      Damaged (F.log es ++ rest)

variable (F) in
/-- The log ends inside a size. -/
def EndsInSize (s : Bytes) : Prop :=
  ∃ es e p rest, p ≠ [] ∧ rest ≠ [] ∧ F.sizePrefix e = p ++ rest ∧ s = F.log es ++ p

variable (F) in
/-- A size of the log is encoded in more bytes than a number has. -/
def HasOverlongSize (s : Bytes) : Prop :=
  ∃ es rest, Varint.readInt rest = .error .overflow ∧ s = F.log es ++ rest

theorem isInt64_size (e : Entry) : Varint.IsInt64 (F.marshal e).length := by
  have hle := F.marshal_le e
  have hlt := F.growLimit_lt
  constructor <;> omega

/-- An entry is read as it was written. -/
theorem readEntry_write (e : Entry) (s : Bytes) :
    F.readEntry ⟨[], F.writeSizePrefixedProto e ++ s⟩ = .returned (e, ⟨[], s⟩) := by
  have hle := F.marshal_le e
  rw [readEntry, readSizePrefixedProto, writeSizePrefixedProto, sizePrefix, List.append_assoc,
    Varint.readInt_encodeInt (isInt64_size e)]
  simp only [Int.toNat_natCast]
  rw [if_neg (by omega), if_neg (by simp), List.nil_append, List.take_left, F.unmarshal_marshal,
    List.drop_left]

/-- The entries of a log are read one after the other. -/
theorem readAllFrom_log (es : List Entry) (s : Bytes) (acc : List Event) :
    F.readAllFrom ⟨[], F.log es ++ s⟩ acc = F.readAllFrom ⟨[], s⟩ (acc ++ es.flatMap F.events) := by
  induction es generalizing acc with
  | nil => simp [log]
  | cons e es ih =>
    have hentry := readEntry_write (F := F) e (F.log es ++ s)
    have hsplit : F.log (e :: es) ++ s = F.writeSizePrefixedProto e ++ (F.log es ++ s) := by
      rw [log, List.flatMap_cons, List.append_assoc]
      rfl
    rw [hsplit, readAllFrom]
    split
    next hpanic => rw [hentry] at hpanic; cases hpanic
    next err hfail => rw [hentry] at hfail; cases hfail
    next entry r' hreturn =>
      rw [hentry] at hreturn
      cases hreturn
      rw [ih, List.append_assoc, List.flatMap_cons]

/-- What the reader does when the next entry cannot be read. -/
theorem readAllFrom_failed {err : ReadError} (h : F.readEntry r = .failed err) (acc : List Event) :
    F.readAllFrom r acc = if err.isEOF then .returned acc else .failed err := by
  rw [readAllFrom]
  split <;> simp_all

theorem readAllFrom_panicked (h : F.readEntry r = .panicked) (acc : List Event) :
    F.readAllFrom r acc = .panicked := by
  rw [readAllFrom]
  split <;> simp_all

/-- The input ends inside a size. -/
theorem readEntry_endsInSize {rest : Bytes} (hp : p ≠ []) (hrest : rest ≠ [])
    (hsplit : F.sizePrefix e = p ++ rest) :
    ∃ messages, F.readEntry ⟨[], p⟩ = .failed ⟨messages, F.partialPrefix⟩ := by
  rw [readEntry, readSizePrefixedProto, Varint.readInt_truncated (isInt64_size e) hsplit hp hrest]
  by_cases hEOF : F.partialPrefix = .eof
  · exact ⟨[], by simp [varintCause, ReadError.isEOF, hEOF]⟩
  · exact ⟨["error reading event", "could not read size prefix"],
      by simp [varintCause, ReadError.isEOF, ReadError.withMessage, hEOF]⟩

/-- A size that is not that of an entry behind it. -/
theorem readEntry_badSize {l : ℤ} {bytes rest : Bytes} (hread : Varint.readInt bytes = .ok (l, rest))
    (hbad : l < 0 ∨ (F.growLimit : ℤ) < l ∨ (rest.length : ℤ) < l) :
    F.readEntry ⟨[], bytes⟩ = .panicked ∨
      ∃ messages, F.readEntry ⟨[], bytes⟩ = .failed ⟨messages, .eof⟩ := by
  rw [readEntry, readSizePrefixedProto, hread]
  by_cases hgrow : l < 0 ∨ (F.growLimit : ℤ) < l
  · left
    simp only [if_pos hgrow]
  · right
    refine ⟨["could not read message"], ?_⟩
    have hshort : rest.length < l.toNat := by omega
    simp only [if_neg hgrow, if_pos hshort, ReadError.withMessage, ReadError.isEOF, decide_true,
      if_true]

/-- A log that ends inside an entry, but not inside its size, is read as a shorter log. -/
theorem not_failed_badSize (es : List Entry) {l : ℤ} {bytes rest : Bytes}
    (hread : Varint.readInt bytes = .ok (l, rest))
    (hbad : l < 0 ∨ (F.growLimit : ℤ) < l ∨ (rest.length : ℤ) < l) (err : ReadError) :
    F.readAllEvents (F.log es ++ bytes) ≠ .failed err := by
  rw [readAllEvents, readAllFrom_log]
  rcases readEntry_badSize (F := F) hread hbad with hpanic | ⟨messages, hfail⟩
  · rw [readAllFrom_panicked hpanic]
    nofun
  · rw [readAllFrom_failed hfail]
    simp only [ReadError.isEOF, decide_true, if_true]
    nofun

theorem failed_of_hasOverlongSize (h : F.HasOverlongSize s) :
    ∃ err, F.readAllEvents s = .failed err := by
  obtain ⟨es, rest, hread, rfl⟩ := h
  have hfail : F.readEntry ⟨[], rest⟩ =
      .failed ⟨["error reading event", "could not read size prefix"], .overflow⟩ := by
    rw [readEntry, readSizePrefixedProto, hread]
    rfl
  rw [readAllEvents, readAllFrom_log, readAllFrom_failed hfail]
  exact ⟨_, rfl⟩

theorem readAllEvents_endsInSize (h : F.EndsInSize s) :
    (∃ err, F.readAllEvents s = .failed err) ↔ F.partialPrefix ≠ .eof := by
  obtain ⟨es, e, p, rest, hp, hrest, hsplit, rfl⟩ := h
  obtain ⟨messages, hfail⟩ := readEntry_endsInSize hp hrest hsplit
  rw [readAllEvents, readAllFrom_log, readAllFrom_failed hfail]
  by_cases hEOF : F.partialPrefix = .eof
  · simp [ReadError.isEOF, hEOF]
  · simp [ReadError.isEOF, hEOF]

/-- A log that ends inside an entry ends inside its size, or behind it. -/
theorem truncated_cases (es : List Entry) {rest : Bytes} (hp : p ≠ []) (hrest : rest ≠ [])
    (hsplit : F.writeSizePrefixedProto e = p ++ rest) :
    F.EndsInSize (F.log es ++ p) ∨
      ∃ body, p = F.sizePrefix e ++ body ∧ body.length < (F.marshal e).length := by
  have hpos := List.length_pos_iff.mpr hrest
  rcases List.append_eq_append_iff.mp hsplit with ⟨body, hbody, hmarshal⟩ | ⟨tail, htail, hrest'⟩
  · refine .inr ⟨body, hbody, ?_⟩
    rw [hmarshal, List.length_append]
    omega
  · rcases eq_or_ne tail [] with rfl | hne
    · rw [List.append_nil] at htail
      rw [List.nil_append] at hrest'
      refine .inr ⟨[], by rw [htail, List.append_nil], ?_⟩
      rw [← hrest']
      exact hpos
    · exact .inl ⟨es, e, p, tail, hp, hne, htail, rfl⟩

/-- **What was written is read, and damage is reported only inside a size.** For all entries, the events
of their log are read in order. A damaged log is reported as an error exactly if it ends inside a size
and the libraries tell this apart from an end before the size, or if a size has too many bytes. -/
theorem readAllEvents_reports_iff (F : Format Entry Event) :
    (∀ es, F.readAllEvents (F.log es) = .returned (es.flatMap F.events)) ∧
      ∀ s, F.Damaged s →
        ((∃ err, F.readAllEvents s = .failed err) ↔
          F.EndsInSize s ∧ F.partialPrefix ≠ .eof ∨ F.HasOverlongSize s) := by
  refine ⟨fun es => ?_, fun s hs => ⟨?_, ?_⟩⟩
  · have hend : F.readEntry ⟨[], []⟩ = .failed ⟨[], .eof⟩ := rfl
    have hlog := readAllFrom_log (F := F) es [] []
    rw [List.append_nil] at hlog
    rw [readAllEvents, hlog, readAllFrom_failed hend, List.nil_append]
    rfl
  · rintro ⟨err, herr⟩
    cases hs with
    | badSize es hread hbad => exact absurd herr (not_failed_badSize es hread hbad err)
    | overlong es rest hread => exact .inr ⟨es, rest, hread, rfl⟩
    | @truncated es e p rest hp hrest hsplit =>
      rcases truncated_cases es hp hrest hsplit with hends | ⟨body, rfl, hbody⟩
      · exact .inl ⟨hends, (readAllEvents_endsInSize hends).mp ⟨err, herr⟩⟩
      · have hbad : (body.length : ℤ) < (F.marshal e).length := by exact_mod_cast hbody
        exact absurd herr (not_failed_badSize es
          (Varint.readInt_encodeInt (isInt64_size e) body) (.inr (.inr hbad)) err)
  · rintro (⟨hends, hEOF⟩ | hlong)
    · exact (readAllEvents_endsInSize hends).mpr hEOF
    · exact failed_of_hasOverlongSize hlong

end Format

/-- Entries of one byte, which is also the event they hold. -/
def byteFormat : Format UInt8 UInt8 where
  marshal b := [b]
  unmarshal bytes := bytes.head?
  events b := [b]
  growLimit := 1024
  partialPrefix := .unexpectedEOF
  unmarshal_marshal _ := rfl
  marshal_le b := show [b].length ≤ 1024 by simp
  growLimit_lt := by decide

/-- The second of two entries is cut off behind its size: the reader returns the first one and no
error. Behind the size -1 it panics. -/
theorem readAllEvents_truncated_silently :
    (byteFormat.Damaged (byteFormat.log [5] ++ byteFormat.sizePrefix 7) ∧
      byteFormat.readAllEvents (byteFormat.log [5] ++ byteFormat.sizePrefix 7) = .returned [5]) ∧
    byteFormat.Damaged (Varint.encodeInt (-1)) ∧
      byteFormat.readAllEvents (Varint.encodeInt (-1)) = .panicked := by
  have hcut : byteFormat.readEntry ⟨[], byteFormat.sizePrefix 7⟩ =
      .failed ⟨["could not read message"], .eof⟩ := by decide +kernel
  have hneg : byteFormat.readEntry ⟨[], Varint.encodeInt (-1)⟩ = .panicked := by decide +kernel
  refine ⟨⟨.truncated [5] (by decide +kernel) (List.cons_ne_nil 7 []) rfl, ?_⟩, ?_, ?_⟩
  · rw [Format.readAllEvents, Format.readAllFrom_log, Format.readAllFrom_failed hcut]
    rfl
  · have hread : Varint.readInt (Varint.encodeInt (-1)) = .ok (-1, []) := by decide +kernel
    exact .badSize [] hread (.inl (by decide))
  · exact Format.readAllFrom_panicked hneg []

end Mir.EventLog
