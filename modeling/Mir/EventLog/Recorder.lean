import Mir.Lib.Trace

/-!
# Splitting the event log into files

The recorder of `eventlog` and its file policies. A policy splits the events of one record into chunks,
and the recorder opens a new file for every chunk of a record but the first.

So a chunk that ends with its record does not end the file: the events of the next record are written to
the same file. With `EventTrackerLogger`, chunks end where the next event requires a new file, and the first
chunk of a record is empty if its first event does. `EventLimitLogger` ends a chunk as soon as it has
counted enough events, so its limit is respected only as long as no record starts where a chunk has ended.

Writers are assumed not to fail. The number of events that have been counted is not bounded here.
-/

namespace Mir.EventLog

variable {E : Type}

/-! ### File policies -/

/-- The variables `result` and `currentChunk` of the policies. -/
structure Chunks (E : Type) where
  result : List (List E)
  currentChunk : List E

namespace Chunks

/-- The event is added to the current chunk. -/
def push (c : Chunks E) (event : E) : Chunks E := ⟨c.result, c.currentChunk ++ [event]⟩

/-- The current chunk is appended to the result, and a new one created. -/
def close (c : Chunks E) : Chunks E := ⟨c.result ++ [c.currentChunk], []⟩

/-- The chunks of a record. The current one is included if it has events. -/
def all (c : Chunks E) : List (List E) :=
  if c.currentChunk.length > 0 then c.result ++ [c.currentChunk] else c.result

/-- The events of the chunks. -/
def events (c : Chunks E) : List E := c.result.flatten ++ c.currentChunk

theorem events_push (c : Chunks E) (event : E) : (c.push event).events = c.events ++ [event] :=
  (List.append_assoc _ _ _).symm

theorem events_close (c : Chunks E) : c.close.events = c.events := by
  simp [events, close]

theorem flatten_all (c : Chunks E) : c.all.flatten = c.events := by
  rw [all]
  split
  · simp [events]
  next hempty => simp [events, List.length_eq_zero_iff.mp (Nat.eq_zero_of_not_pos hempty)]

end Chunks

/-- One iteration of the loop of `EventTrackerLogger`. -/
def trackEvent (newFile : E → Bool) (c : Chunks E) (event : E) : Chunks E :=
  if newFile event then c.close.push event else c.push event

/-- `EventTrackerLogger`. -/
def eventTrackerLogger (newFile : E → Bool) (record : List E) : List (List E) :=
  (record.foldl (trackEvent newFile) ⟨[], []⟩).all

/-- One iteration of the loop of `EventLimitLogger`, with its counter. -/
def limitEvent (eventLimit : ℕ) (acc : Chunks E × ℕ) (event : E) : Chunks E × ℕ :=
  let currentChunk := acc.1.push event
  let eventCount := acc.2 + 1
  (if eventCount % eventLimit = 0 then currentChunk.close else currentChunk, eventCount)

/-- `EventLimitLogger`: the chunks, and the counter after the record. -/
def eventLimitLogger (eventLimit eventCount : ℕ) (record : List E) : List (List E) × ℕ :=
  let acc := record.foldl (limitEvent eventLimit) (⟨[], []⟩, eventCount)
  (acc.1.all, acc.2)

/-- The file policies. `EventLimitLogger` divides by its limit, which is positive. -/
inductive FilePolicy (E : Type)
  | eventTracker (newFile : E → Bool)
  | eventLimit (eventLimit : ℕ+)
  | oneFile

/-- `newDests`, with the counter of `EventLimitLogger`. -/
def FilePolicy.newDests : FilePolicy E → ℕ → List E → List (List E) × ℕ
  | .eventTracker newFile, eventCount, record => (eventTrackerLogger newFile record, eventCount)
  | .eventLimit n, eventCount, record => eventLimitLogger n eventCount record
  | .oneFile, eventCount, record => ([record], eventCount)

/-! ### The recorder -/

/-- A log file: the events that were assigned to it, and those that were written to it. -/
structure File (E : Type) where
  assigned : List E
  written : List E

/-- A new file. -/
def File.empty : File E := ⟨[], []⟩

/-- `Write` of what passes the filter. -/
def File.write (filter : E → Bool) (file : File E) (chunk : List E) : File E :=
  ⟨file.assigned ++ chunk, file.written ++ chunk.filter filter⟩

/-- The closed files, the current one, and the counter of the policy. -/
structure Recorder (E : Type) where
  closed : List (File E)
  dest : File E
  eventCount : ℕ

/-- All files, in the order of their numbers. -/
def Recorder.files (r : Recorder E) : List (File E) := r.closed ++ [r.dest]

/-- One iteration of the loop of `writeEvents`, with its variable `count`. -/
def writeChunk (filter : E → Bool) (acc : Recorder E × ℕ) (chunk : List E) : Recorder E × ℕ :=
  let r := if acc.2 > 0 then { acc.1 with closed := acc.1.files, dest := .empty } else acc.1
  (if chunk.length ≠ 0 then { r with dest := r.dest.write filter chunk } else r, acc.2 + 1)

/-- `Recorder.writeEvents`. -/
def writeEvents (filter : E → Bool) (policy : FilePolicy E) (r : Recorder E) (record : List E) :
    Recorder E :=
  let eventByDests := policy.newDests r.eventCount record
  (eventByDests.1.foldl (writeChunk filter) ({ r with eventCount := eventByDests.2 }, 0)).1

/-- The recorder after a sequence of records. -/
def recorded (filter : E → Bool) (policy : FilePolicy E) (records : List (List E)) : Recorder E :=
  records.foldl (writeEvents filter policy) ⟨[], .empty, 0⟩

/-- The contents of files after chunks have been written: the first chunk goes to the file `d`. -/
def place (F : List (List E)) (d : List E) : List (List E) → List (List E)
  | [] => F ++ [d]
  | chunk :: chunks => F ++ (d ++ chunk) :: chunks

section Recorder

variable {filter p : E → Bool} {policy : FilePolicy E} {r : Recorder E} {record : List E}
  {view : File E → List E} {F : List (List E)} {d : List E}

theorem writeChunk_eq (k : ℕ) (chunk : List E) : writeChunk filter (r, k) chunk =
    (if k > 0 then { r with closed := r.files, dest := File.empty.write filter chunk }
      else { r with dest := r.dest.write filter chunk }, k + 1) := by
  have hnil : ∀ file : File E, file.write filter [] = file := by simp [File.write]
  cases k <;> cases chunk <;> simp [writeChunk, hnil]

/-- The chunks after the first are written to files of their own. -/
theorem files_foldl_writeChunk (k : ℕ) (chunks : List (List E)) :
    (chunks.foldl (writeChunk filter) (r, k + 1)).1.files =
      r.files ++ chunks.map (File.empty.write filter) := by
  induction chunks generalizing r k with
  | nil => exact (List.append_nil _).symm
  | cons chunk chunks ih =>
    rw [List.foldl_cons, writeChunk_eq, if_pos (Nat.succ_pos k), ih]
    simp [Recorder.files]

theorem eventCount_writeEvents :
    (writeEvents filter policy r record).eventCount = (policy.newDests r.eventCount record).2 := by
  have hfold : ∀ (chunks : List (List E)) (acc : Recorder E × ℕ),
      (chunks.foldl (writeChunk filter) acc).1.eventCount = acc.1.eventCount := by
    intro chunks
    induction chunks with
    | nil => exact fun _ => rfl
    | cons chunk chunks ih =>
      rintro ⟨r, k⟩
      rw [List.foldl_cons, ih, writeChunk_eq]
      split <;> rfl
  exact hfold _ _

/-- What `writeEvents` adds to the files, for what was assigned and for what was written. -/
theorem map_view_writeEvents (hempty : view .empty = [])
    (hwrite : ∀ file chunk, view (file.write filter chunk) = view file ++ chunk.filter p) :
    (writeEvents filter policy r record).files.map view =
      place (r.closed.map view) (view r.dest)
        ((policy.newDests r.eventCount record).1.map (List.filter p)) := by
  rw [writeEvents]
  cases (policy.newDests r.eventCount record).1 with
  | nil => simp [Recorder.files, place]
  | cons chunk chunks =>
    rw [List.foldl_cons, writeChunk_eq, files_foldl_writeChunk]
    simp [Recorder.files, place, hwrite, hempty]

theorem map_assigned_writeEvents (filter : E → Bool) (policy : FilePolicy E) (r : Recorder E)
    (record : List E) :
    (writeEvents filter policy r record).files.map File.assigned =
      place (r.closed.map File.assigned) r.dest.assigned
        (policy.newDests r.eventCount record).1 := by
  rw [map_view_writeEvents (p := fun _ => true) rfl fun file chunk => by simp [File.write],
    show List.filter (fun _ : E => true) = id from funext List.filter_true, List.map_id]

theorem flatten_place (chunks : List (List E)) :
    (place F d chunks).flatten = (F ++ [d]).flatten ++ chunks.flatten := by
  cases chunks <;> simp [place]

theorem recorded_concat (records : List (List E)) (record : List E) :
    recorded filter policy (records ++ [record]) =
      writeEvents filter policy (recorded filter policy records) record := by
  rw [recorded, List.foldl_append]
  rfl

/-! ### No event is lost -/

theorem events_foldl_trackEvent (newFile : E → Bool) :
    (record.foldl (trackEvent newFile) ⟨[], []⟩).events = record := by
  induction record using List.reverseRecOn with
  | nil => rfl
  | append_singleton record event ih =>
    rw [List.foldl_append, List.foldl_cons, List.foldl_nil, trackEvent]
    split
    · rw [Chunks.events_push, Chunks.events_close, ih]
    · rw [Chunks.events_push, ih]

theorem foldl_limitEvent (n k : ℕ) (record : List E) :
    (record.foldl (limitEvent n) (⟨[], []⟩, k)).1.events = record ∧
      (record.foldl (limitEvent n) (⟨[], []⟩, k)).2 = k + record.length ∧
      ∀ chunk ∈ (record.foldl (limitEvent n) (⟨[], []⟩, k)).1.result, chunk ≠ [] := by
  induction record using List.reverseRecOn with
  | nil => exact ⟨rfl, rfl, by simp⟩
  | append_singleton record event ih =>
    obtain ⟨hevents, hcount, hresult⟩ := ih
    rw [List.foldl_append, List.foldl_cons, List.foldl_nil, limitEvent]
    refine ⟨?_, ?_, ?_⟩
    · dsimp only
      split
      · rw [Chunks.events_close, Chunks.events_push, hevents]
      · rw [Chunks.events_push, hevents]
    · rw [hcount, List.length_append, List.length_singleton]
      rfl
    · dsimp only
      split
      · exact List.forall_mem_append.mpr ⟨hresult, by simp [Chunks.push]⟩
      · exact hresult

/-- The chunks of a record are its events. -/
theorem flatten_newDests (k : ℕ) (record : List E) :
    (policy.newDests k record).1.flatten = record := by
  cases policy with
  | eventTracker newFile => exact (Chunks.flatten_all _).trans (events_foldl_trackEvent newFile)
  | eventLimit n => exact (Chunks.flatten_all _).trans (foldl_limitEvent n k record).1
  | oneFile => exact List.append_nil _

theorem flatten_recorded (hempty : view .empty = [])
    (hwrite : ∀ file chunk, view (file.write filter chunk) = view file ++ chunk.filter p)
    (records : List (List E)) :
    ((recorded filter policy records).files.map view).flatten = records.flatten.filter p := by
  induction records using List.reverseRecOn with
  | nil => simp [recorded, Recorder.files, hempty]
  | append_singleton records record ih =>
    rw [Recorder.files, List.map_append, List.map_singleton] at ih
    rw [recorded_concat, map_view_writeEvents hempty hwrite, flatten_place, ih,
      ← List.filter_flatten, flatten_newDests, ← List.filter_append]
    simp

/-! ### Where files start -/

/-- The closed files and the current one after a part of a record, if its chunks are placed as the
recorder does. -/
def placed (F : List (List E)) (d : List E) (c : Chunks E) : List (List E) × List E :=
  match c.result with
  | [] => (F, d ++ c.currentChunk)
  | chunk :: chunks => (F ++ (d ++ chunk) :: chunks, c.currentChunk)

theorem placed_push (c : Chunks E) (event : E) :
    placed F d (c.push event) = ((placed F d c).1, (placed F d c).2 ++ [event]) := by
  obtain ⟨_ | ⟨chunk, chunks⟩, currentChunk⟩ := c <;> simp [placed, Chunks.push]

theorem placed_close (c : Chunks E) :
    placed F d c.close = ((placed F d c).1 ++ [(placed F d c).2], []) := by
  obtain ⟨_ | ⟨chunk, chunks⟩, currentChunk⟩ := c <;> simp [placed, Chunks.close]

/-- At the end of a record, a last chunk without events is left out. -/
theorem place_all (c : Chunks E) :
    place F d c.all = (placed F d c).1 ++ [(placed F d c).2] ∨
      place F d c.all = (placed F d c).1 ∧ (placed F d c).2 = [] ∧ (placed F d c).1 ≠ [] := by
  obtain ⟨_ | ⟨chunk, chunks⟩, _ | ⟨event, events⟩⟩ := c <;> simp [placed, place, Chunks.all]

/-- The event that starts a file requires a new one, and none of the others does. -/
def Opens (newFile : E → Bool) (file : List E) : Prop :=
  ∃ event events, file = event :: events ∧ newFile event = true ∧ ∀ e ∈ events, newFile e = false

/-- The events that require a new file are those that start the files after the first. -/
def Tracked (newFile : E → Bool) (files : List (List E)) : Prop :=
  ∃ first later, files = first :: later ∧ (∀ e ∈ first, newFile e = false) ∧
    ∀ file ∈ later, Opens newFile file

variable {newFile : E → Bool} {G : List (List E)} {g : List E} {event : E}

theorem Tracked.push (h : Tracked newFile (G ++ [g])) (hevent : newFile event = false) :
    Tracked newFile (G ++ [g ++ [event]]) := by
  obtain ⟨first, later, hfiles, hfirst, hlater⟩ := h
  cases G with
  | nil =>
    obtain ⟨rfl, rfl⟩ : g = first ∧ [] = later := by simpa using hfiles
    exact ⟨g ++ [event], [], rfl, forall_mem_concat hfirst hevent, nofun⟩
  | cons file G =>
    obtain ⟨rfl, rfl⟩ : file = first ∧ G ++ [g] = later := by simpa using hfiles
    obtain ⟨hG, hg⟩ := List.forall_mem_append.mp hlater
    obtain ⟨e, events, rfl, he, hevents⟩ := hg g List.mem_cons_self
    refine ⟨file, G ++ [e :: events ++ [event]], rfl, hfirst, forall_mem_concat hG ?_⟩
    exact ⟨e, events ++ [event], rfl, he, forall_mem_concat hevents hevent⟩

theorem Tracked.open (h : Tracked newFile G) (hevent : newFile event = true) :
    Tracked newFile (G ++ [[event]]) := by
  obtain ⟨first, later, rfl, hfirst, hlater⟩ := h
  refine ⟨first, later ++ [[event]], rfl, hfirst, forall_mem_concat hlater ?_⟩
  exact ⟨event, [], rfl, hevent, nofun⟩

theorem Tracked.foldl (h : Tracked newFile (F ++ [d])) (record : List E) :
    Tracked newFile ((placed F d (record.foldl (trackEvent newFile) ⟨[], []⟩)).1 ++
      [(placed F d (record.foldl (trackEvent newFile) ⟨[], []⟩)).2]) := by
  induction record using List.reverseRecOn with
  | nil => simpa [placed] using h
  | append_singleton record event ih =>
    rw [List.foldl_append, List.foldl_cons, List.foldl_nil, trackEvent]
    split
    next hevent =>
      rw [placed_push, placed_close]
      exact ih.open hevent
    next hevent =>
      rw [placed_push]
      exact ih.push (Bool.eq_false_iff.mpr hevent)

theorem Tracked.place (h : Tracked newFile (F ++ [d])) (record : List E) :
    Tracked newFile (place F d (eventTrackerLogger newFile record)) := by
  have hfold := h.foldl record
  rw [eventTrackerLogger]
  rcases place_all (F := F) (d := d) (record.foldl (trackEvent newFile) ⟨[], []⟩) with
    hall | ⟨-, hnil, hne⟩
  · rw [hall]
    exact hfold
  · -- every file after the first has events
    obtain ⟨first, later, hfiles, -, hlater⟩ := hfold
    obtain ⟨file, G, hG⟩ := List.exists_cons_of_ne_nil hne
    rw [hnil, hG, List.cons_append, List.cons.injEq] at hfiles
    obtain ⟨_, _, hopens, -⟩ := hlater [] (hfiles.2 ▸ List.mem_append_right G List.mem_cons_self)
    cases hopens

/-- **`EventTrackerLogger` starts files where it should.** -/
theorem tracked_recorded (newFile : E → Bool) (records : List (List E)) :
    Tracked newFile ((recorded filter (.eventTracker newFile) records).files.map File.assigned) := by
  induction records using List.reverseRecOn with
  | nil => exact ⟨[], [], rfl, nofun, nofun⟩
  | append_singleton records record ih =>
    rw [Recorder.files, List.map_append, List.map_singleton] at ih
    rw [recorded_concat, map_assigned_writeEvents]
    exact ih.place record

/-! ### How long files are -/

/-- No file has more than `n` events, and all but the last have `n`. -/
def Limited (n : ℕ) (files : List (List E)) : Prop :=
  (∀ file ∈ files, file.length ≤ n) ∧ ∀ file ∈ files.dropLast, file.length = n

/-- No record with events starts after a number of events that is a positive multiple of `n`. -/
def BoundariesInside (n : ℕ) (records : List (List E)) : Prop :=
  ∀ before record after, records = before ++ record :: after → record ≠ [] →
    n ∣ before.flatten.length → before.flatten.length = 0

variable {n k : ℕ} {records : List (List E)}

theorem limited_concat_iff :
    Limited n (G ++ [g]) ↔ (∀ file ∈ G, file.length = n) ∧ g.length ≤ n := by
  rw [Limited, List.dropLast_concat]
  constructor
  · rintro ⟨hle, heq⟩
    exact ⟨heq, hle g (List.mem_append_right _ List.mem_cons_self)⟩
  · rintro ⟨heq, hle⟩
    exact ⟨forall_mem_concat (fun file hfile => (heq file hfile).le) hle, heq⟩

theorem length_flatten_of_full (h : ∀ file ∈ F, file.length = n) :
    F.flatten.length = F.length * n := by
  rw [List.length_flatten, List.sum_eq_card_nsmul _ n (by simpa using h), List.length_map,
    smul_eq_mul]

/-- Files are filled one after the other. -/
theorem full_foldl_limitEvent (hn : 0 < n) (hF : ∀ file ∈ F, file.length = n)
    (hd : d.length = k % n) (record : List E) :
    (∀ file ∈ (placed F d (record.foldl (limitEvent n) (⟨[], []⟩, k)).1).1, file.length = n) ∧
      (placed F d (record.foldl (limitEvent n) (⟨[], []⟩, k)).1).2.length =
        (k + record.length) % n := by
  induction record using List.reverseRecOn with
  | nil => simpa [placed, hd] using hF
  | append_singleton record event ih =>
    obtain ⟨hfull, hlast⟩ := ih
    have hmod := Nat.mod_lt (k + record.length) hn
    have hsucc : (k + record.length + 1) % n =
        if (k + record.length) % n + 1 = n then 0 else (k + record.length) % n + 1 := by
      rw [← Nat.mod_add_mod]
      split
      next h => rw [h, Nat.mod_self]
      next h => exact Nat.mod_eq_of_lt (by omega)
    rw [List.foldl_append, List.foldl_cons, List.foldl_nil, limitEvent,
      (foldl_limitEvent n k record).2.1, List.length_append, List.length_singleton, ← Nat.add_assoc]
    dsimp only
    split
    next hzero =>
      rw [placed_close, placed_push]
      refine ⟨forall_mem_concat hfull ?_, hzero.symm⟩
      -- the count has reached a multiple of the limit
      rw [List.length_append, List.length_singleton, hlast]
      rw [hsucc] at hzero
      split at hzero
      next h => exact h
      next => cases hzero
    next hne =>
      rw [placed_push]
      refine ⟨hfull, ?_⟩
      rw [List.length_append, List.length_singleton, hlast, hsucc]
      rw [hsucc] at hne
      split at hne
      next => exact absurd rfl hne
      next h => rw [if_neg h]

theorem ne_nil_of_mem_eventLimitLogger {chunk : List E}
    (h : chunk ∈ (eventLimitLogger n k record).1) : chunk ≠ [] := by
  have hresult := (foldl_limitEvent n k record).2.2
  rw [eventLimitLogger, Chunks.all] at h
  split at h
  next hpos => exact forall_mem_concat hresult (List.ne_nil_of_length_pos hpos) chunk h
  next => exact hresult chunk h

/-- What a record does to the lengths of the files. -/
theorem limited_place_iff (hn : 0 < n) (hk : (F ++ [d]).flatten.length = k)
    (hd : d = [] → F = []) (record : List E) :
    Limited n (place F d (eventLimitLogger n k record).1) ↔
      Limited n (F ++ [d]) ∧ (record = [] ∨ k = 0 ∨ ¬n ∣ k) := by
  have hevents := (foldl_limitEvent n k record).1
  rw [← Chunks.flatten_all] at hevents
  have hsum : (∀ file ∈ F, file.length = n) → k = F.length * n + d.length := by
    intro hF
    rw [← hk, List.flatten_append, List.length_append, length_flatten_of_full hF]
    simp
  constructor
  · intro h
    cases hchunks : (eventLimitLogger n k record).1 with
    | nil =>
      rw [hchunks] at h
      rw [show Chunks.all _ = _ from hchunks] at hevents
      exact ⟨h, .inl hevents.symm⟩
    | cons chunk chunks =>
      have hchunk := ne_nil_of_mem_eventLimitLogger (hchunks ▸ List.mem_cons_self)
      rw [hchunks, place] at h
      have hF : ∀ file ∈ F, file.length = n := fun file hfile => h.2 file (by
        rw [List.dropLast_append_of_ne_nil (List.cons_ne_nil _ _)]
        exact List.mem_append_left _ hfile)
      have hle := h.1 (d ++ chunk) (List.mem_append_right _ List.mem_cons_self)
      have hpos := List.length_pos_iff.mpr hchunk
      rw [List.length_append] at hle
      refine ⟨limited_concat_iff.mpr ⟨hF, by omega⟩, .inr ?_⟩
      rw [or_iff_not_imp_right, not_not]
      intro hdvd
      -- only an empty log can end with a file without events
      rw [hsum hF, Nat.dvd_add_right (Dvd.intro_left _ rfl)] at hdvd
      have hzero := Nat.eq_zero_of_dvd_of_lt hdvd (by omega)
      rw [hsum hF, hd (List.length_eq_zero_iff.mp hzero), hzero]
      simp
  · rintro ⟨h, hor⟩
    obtain ⟨hF, hle⟩ := limited_concat_iff.mp h
    rcases hor with rfl | hor
    · exact h
    · have hlt : d.length < n := by
        refine lt_of_le_of_ne hle fun heq => ?_
        rw [hsum hF, heq] at hor
        rcases hor with hzero | hnot
        · omega
        · exact hnot (Dvd.intro_left (F.length + 1) (by ring))
      have hmod : d.length = k % n := by
        rw [hsum hF, Nat.mul_add_mod', Nat.mod_eq_of_lt hlt]
      obtain ⟨hfull, hlast⟩ := full_foldl_limitEvent hn hF hmod record
      rw [eventLimitLogger]
      rcases place_all (F := F) (d := d) (record.foldl (limitEvent n) (⟨[], []⟩, k)).1 with
        hall | ⟨hall, -⟩
      · rw [hall, limited_concat_iff, hlast]
        exact ⟨hfull, (Nat.mod_lt _ hn).le⟩
      · rw [hall]
        exact ⟨fun file hfile => (hfull file hfile).le,
          fun file hfile => hfull file (List.mem_of_mem_dropLast hfile)⟩

theorem boundariesInside_concat_iff : BoundariesInside n (records ++ [record]) ↔
    BoundariesInside n records ∧
      (record = [] ∨ records.flatten.length = 0 ∨ ¬n ∣ records.flatten.length) := by
  constructor
  · intro h
    refine ⟨fun before record' after heq => ?_, ?_⟩
    · exact h before record' (after ++ [record]) (by rw [heq]; simp)
    · have hlast := h records record [] rfl
      tauto
  · rintro ⟨h, hlast⟩ before record' after heq hne hdvd
    rcases List.eq_nil_or_concat after with rfl | ⟨after, x, rfl⟩
    · obtain ⟨rfl, hrecord⟩ := List.append_inj' heq rfl
      cases hrecord
      tauto
    · rw [List.concat_eq_append, ← List.cons_append, ← List.append_assoc] at heq
      exact h before record' after (List.append_inj' heq rfl).1 hne hdvd

/-- A file that is opened for a chunk has events. -/
theorem nil_of_place_nil {chunks : List (List E)} (hchunks : ∀ chunk ∈ chunks, chunk ≠ [])
    (hd : d = [] → F = []) (h : place F d chunks = G ++ [[]]) : G = [] := by
  cases chunks with
  | nil =>
    obtain ⟨rfl, hlast⟩ := List.append_inj' h rfl
    exact hd (List.singleton_inj.mp hlast)
  | cons chunk chunks =>
    rcases List.eq_nil_or_concat chunks with rfl | ⟨init, last, rfl⟩
    · have hlast := List.singleton_inj.mp (List.append_inj' h rfl).2
      exact absurd (List.append_eq_nil_iff.mp hlast).2 (hchunks chunk List.mem_cons_self)
    · rw [place, List.concat_eq_append, ← List.cons_append, ← List.append_assoc] at h
      refine absurd (List.singleton_inj.mp (List.append_inj' h rfl).2) (hchunks last ?_)
      simp

/-- What holds after every sequence of records: the counter is right, files that were opened have events,
and the limit is respected exactly if no record has started at a multiple of it. -/
theorem limited_recorded (n : ℕ+) (records : List (List E)) :
    (recorded filter (.eventLimit n) records).eventCount = records.flatten.length ∧
      ((recorded filter (.eventLimit n) records).dest.assigned = [] →
        (recorded filter (.eventLimit n) records).closed.map File.assigned = []) ∧
      (Limited n ((recorded filter (.eventLimit n) records).files.map File.assigned) ↔
        BoundariesInside n records) := by
  have hfiles : ∀ r : Recorder E, r.files.map File.assigned =
      r.closed.map File.assigned ++ [r.dest.assigned] := fun r => by simp [Recorder.files]
  induction records using List.reverseRecOn with
  | nil =>
    refine ⟨rfl, fun _ => rfl, iff_of_true ?_ ?_⟩
    · simp [Limited, recorded, Recorder.files, File.empty]
    · intro before record after heq
      simp at heq
  | append_singleton records record ih =>
    obtain ⟨hcount, hdest, hiff⟩ := ih
    have htotal : ((recorded filter (.eventLimit n) records).files.map File.assigned).flatten =
        records.flatten.filter fun _ => true :=
      flatten_recorded rfl (fun file chunk => by simp [File.write]) records
    rw [List.filter_true, hfiles] at htotal
    rw [hfiles] at hiff
    have hplace := map_assigned_writeEvents filter (.eventLimit n)
      (recorded filter (.eventLimit n) records) record
    rw [hcount] at hplace
    rw [recorded_concat, eventCount_writeEvents, hcount, hplace, boundariesInside_concat_iff, ← hiff]
    refine ⟨?_, fun hnil => ?_, limited_place_iff n.pos (by rw [htotal]) hdest record⟩
    · rw [FilePolicy.newDests, eventLimitLogger, (foldl_limitEvent _ _ record).2.1]
      simp
    · rw [hfiles, hnil] at hplace
      exact nil_of_place_nil (fun chunk hchunk => ne_nil_of_mem_eventLimitLogger hchunk) hdest
        hplace.symm

end Recorder

/-- **Splitting the event log.** For all records and every filter, no policy loses events or changes their
order; with `EventTrackerLogger`, the events that start files after the first are those that require a
new file; and `EventLimitLogger` respects its limit exactly if no record with events starts after a
positive number of events that is a multiple of the limit. -/
theorem recorded_files (filter : E → Bool) (records : List (List E)) :
    (∀ policy, (recorded filter policy records).files.flatMap File.written =
      records.flatten.filter filter) ∧
    (∀ newFile, Tracked newFile
      ((recorded filter (.eventTracker newFile) records).files.map File.assigned)) ∧
    ∀ n : ℕ+, Limited n ((recorded filter (.eventLimit n) records).files.map File.assigned) ↔
      BoundariesInside n records := by
  refine ⟨fun policy => ?_, fun newFile => tracked_recorded newFile records,
    fun n => (limited_recorded n records).2.2⟩
  rw [List.flatMap_def]
  exact flatten_recorded rfl (fun _ _ => rfl) records

/-- With a limit of one event and two records of one event each, both events are in one file. -/
theorem eventLimit_exceeded :
    (recorded (fun _ => true) (.eventLimit 1) [[1], [2]]).files.map File.assigned = [[1, 2]] ∧
      ¬Limited 1 ((recorded (fun _ => true) (.eventLimit 1) [[1], [2]]).files.map File.assigned) := by
  refine ⟨rfl, fun h => ?_⟩
  have hle : 2 ≤ 1 := h.1 [1, 2] List.mem_cons_self
  omega

end Mir.EventLog
