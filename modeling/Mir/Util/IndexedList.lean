import Mir.Util.Iteration

/-!
# Indexed lists

`indexedlist.IndexedList` as the mempool uses it: a list of entries with distinct keys, and iterators
over it that stay valid while the list changes. Each iterator belongs to a retention index and stops
when the list is garbage-collected past that index.

A list comes with the calls that have led to it, so that the invariant of the pointers holds
(`LinkedList.Inv`) and every call returns. The position of an iterator is a split of the entries into
those it has output and the rest (`At`); every operation says what becomes of it.
-/

namespace Mir

open LinkedList (Call Reply History)

/-- `indexedlist.IndexedList`, with the calls that have led to it. -/
structure IndexedList (K V : Type) [DecidableEq K] where
  list : LinkedList K V
  calls : List (Call K V × Reply K V)
  run : LinkedList.Run calls list

namespace IndexedList

variable {K V : Type} [DecidableEq K]

/-- `New`. -/
def new : IndexedList K V := ⟨.new, [], .new⟩

/-- A call, with the keys and values that it returns. -/
def perform (il : IndexedList K V) (c : Call K V) : IndexedList K V × List (K × V) :=
  match hcall : il.list.call c with
  | none => (il, [])
  | some (list, r) => (⟨list, il.calls ++ [(c, r)], il.run.step hcall⟩, r.items.map Item.pair)

/-- `Len`. -/
def len (il : IndexedList K V) : ℕ := il.list.index.keys.length

/-- `Iterator`, with the reference of the new iterator. -/
def iterator (il : IndexedList K V) (retIdx : RetentionIndex) : IndexedList K V × ℕ :=
  ((il.perform (.iterator retIdx)).1, il.list.iters.length)

/-- `GarbageCollect`. -/
def garbageCollect (il : IndexedList K V) (retIdx : RetentionIndex) : IndexedList K V :=
  (il.perform (.garbageCollect retIdx)).1

/-- `Append`, with the entries that were appended. The keys and values come in pairs. -/
def append (il : IndexedList K V) (items : List (K × V)) : IndexedList K V × List (K × V) :=
  il.perform (.append items)

/-- `RemoveSelected`, with the removed entries. -/
def removeSelected (il : IndexedList K V) (predicate : K → V → Bool) :
    IndexedList K V × List (K × V) :=
  il.perform (.removeSelected fun _ => predicate)

omit [DecidableEq K] in
/-- The state of a predicate that has accepted some entries. It changes its state only when it accepts:
it then returns the new one. -/
def accept {σ : Type} (predicate : σ → K → V → Option σ) (s : σ) (accepted : List (K × V)) :
    Option σ :=
  accepted.foldlM (fun s e => predicate s e.1 e.2) s

/-- `NextWhile`, for the iterator with the given reference and a predicate with a state. -/
def nextWhile {σ : Type} (il : IndexedList K V) (ref : ℕ) (predicate : σ → K → V → Option σ)
    (s : σ) : IndexedList K V × List (K × V) × σ :=
  let taken := il.perform (.nextWhile ref fun accepted key val =>
    ((accept predicate s accepted).bind fun s => predicate s key val).isSome)
  (taken.1, taken.2, (accept predicate s taken.2).getD s)

/-! ### What the operations do to the entries -/

/-- The entries found by following the pointers. -/
def entries (il : IndexedList K V) : List (K × V) := il.list.entries

/-- The retention index up to which garbage was collected. -/
def retIdx (il : IndexedList K V) : RetentionIndex := il.list.retIdx

/-- What the replies to the calls tell. -/
def history (il : IndexedList K V) : History K V := LinkedList.history il.calls

/-- The entries that an iterator has not output yet. -/
def remaining (il : IndexedList K V) (ref : ℕ) : List (K × V) :=
  (il.history.unseen ref).map Item.pair

variable {c : Call K V} {list : LinkedList K V} {r : Reply K V}

theorem inv (il : IndexedList K V) : LinkedList.Inv il.history il.list := il.run.inv

theorem entries_eq (il : IndexedList K V) : il.entries = il.history.entries := il.inv.entries_eq

theorem retIdx_eq (il : IndexedList K V) : il.retIdx = il.history.retIdx := il.inv.retIdx_eq

theorem nodup (il : IndexedList K V) : (il.entries.map Prod.fst).Nodup := by
  rw [entries_eq]
  exact il.inv.keys_nodup

theorem len_eq (il : IndexedList K V) : il.len = il.entries.length := by
  rw [← List.length_map Prod.fst, len]
  refine ((List.perm_ext_iff_of_nodup il.list.index.nodupKeys il.nodup).mpr fun key => ?_).length_eq
  rw [il.entries_eq]
  exact il.inv.mem_index_iff

/-- The reply to a call is recorded and returned. -/
theorem perform_spec (il : IndexedList K V) (hcall : il.list.call c = some (list, r)) :
    (il.perform c).1.history = il.history.record r.items c ∧
      (il.perform c).2 = r.items.map Item.pair := by
  rw [perform]
  split
  next hnone => cases hcall.symm.trans hnone
  next hsome =>
    cases hcall.symm.trans hsome
    exact ⟨LinkedList.history_concat, rfl⟩

/-- A call only records its reply. -/
theorem perform_keeps {α : Type} (il : IndexedList K V) {f : History K V → α}
    (hf : ∀ items, f (il.history.record items c) = f il.history) :
    f (il.perform c).1.history = f il.history := by
  cases hcall : il.list.call c with
  | none =>
    rw [perform]
    split
    next => rfl
    next hsome => cases hcall.symm.trans hsome
  | some next => rw [(il.perform_spec hcall).1, hf]

theorem iterator_retIdx (il : IndexedList K V) (retIdx : RetentionIndex) :
    (il.iterator retIdx).1.retIdx = il.retIdx := by
  rw [retIdx_eq, retIdx_eq]
  exact il.perform_keeps fun _ => rfl

theorem garbageCollect_entries (il : IndexedList K V) (retIdx : RetentionIndex) :
    (il.garbageCollect retIdx).entries = il.entries := by
  rw [entries_eq, entries_eq]
  exact il.perform_keeps fun _ => rfl

/-- Garbage is collected up to a later retention index. -/
theorem garbageCollect_retIdx {il : IndexedList K V} {retIdx : RetentionIndex}
    (h : il.retIdx ≤ retIdx) : (il.garbageCollect retIdx).retIdx = retIdx := by
  rw [retIdx_eq] at h ⊢
  rw [garbageCollect, (il.perform_spec rfl).1, History.record]
  split
  next => rfl
  next hnot => exact UInt64.le_antisymm h (UInt64.not_lt.mp hnot)

theorem nextWhile_unchanged {σ : Type} (il : IndexedList K V) (ref : ℕ)
    (predicate : σ → K → V → Option σ) (s : σ) :
    (il.nextWhile ref predicate s).1.entries = il.entries ∧
      (il.nextWhile ref predicate s).1.retIdx = il.retIdx := by
  rw [entries_eq, entries_eq, retIdx_eq, retIdx_eq]
  exact ⟨il.perform_keeps fun _ => rfl, il.perform_keeps fun _ => rfl⟩

theorem removeSelected_retIdx (il : IndexedList K V) (predicate : K → V → Bool) :
    (il.removeSelected predicate).1.retIdx = il.retIdx := by
  rw [retIdx_eq, retIdx_eq]
  exact il.perform_keeps fun _ => rfl

theorem removeSelected_eq (il : IndexedList K V) (predicate : K → V → Bool) :
    ((il.removeSelected predicate).1.entries, (il.removeSelected predicate).2) =
      (il.entries.filter fun e => !predicate e.1 e.2,
        il.entries.filter fun e => predicate e.1 e.2) := by
  obtain ⟨list, xs, hremove, -, hspec⟩ := il.inv.removeSelected fun _ => predicate
  obtain ⟨hhistory, hitems⟩ := il.perform_spec (c := .removeSelected fun _ => predicate)
    (r := ⟨xs, true⟩) (by rw [LinkedList.call, hremove]; rfl)
  rw [OrderedMap.removeSelected_eq_filter] at hspec
  rw [entries_eq, entries_eq, removeSelected, hhistory, hitems, hspec]
  rfl

/-- `Append` appends the items whose keys are new. -/
theorem append_history (il : IndexedList K V) (items : List (K × V)) :
    ∃ xs, (il.append items).1.history = il.history.append xs ∧
      (il.append items).2 = xs.map Item.pair ∧
      OrderedMap.append il.entries items = ((il.append items).1.entries, (il.append items).2) := by
  obtain ⟨list, xs, happend, -, hspec⟩ := il.inv.append items
  obtain ⟨hhistory, hitems⟩ := il.perform_spec (c := .append items) (r := ⟨xs, true⟩)
    (by rw [LinkedList.call, happend]; rfl)
  refine ⟨xs, hhistory, hitems, ?_⟩
  rw [entries_eq, entries_eq, append, hhistory, hitems, hspec]
  rfl

/-- The appended entries come last in the list. They are some of the given ones, in their order, whose
keys were not present; now all the given keys are. -/
theorem append_spec (il : IndexedList K V) (items : List (K × V)) :
    (il.append items).1.entries = il.entries ++ (il.append items).2 ∧
      (il.append items).2.Sublist items ∧
      (∀ e ∈ (il.append items).2, e.1 ∉ il.entries.map Prod.fst) ∧
      ∀ e ∈ items, e.1 ∈ (il.append items).1.entries.map Prod.fst := by
  obtain ⟨-, -, -, hspec⟩ := il.append_history items
  obtain ⟨added, hadded, hsub, hnew, hall⟩ := OrderedMap.foldl_appendStep il.entries [] items
  obtain ⟨hentries, hitems⟩ := Prod.ext_iff.mp (hspec.symm.trans hadded)
  simp only [List.nil_append] at hentries hitems
  rw [hentries, hitems]
  exact ⟨rfl, hsub, hnew, hall⟩

theorem append_retIdx (il : IndexedList K V) (items : List (K × V)) :
    (il.append items).1.retIdx = il.retIdx := by
  rw [retIdx_eq, retIdx_eq]
  exact il.perform_keeps fun _ => rfl

/-! ### Positions -/

/-- The iterator has output `out` and is yet to output `rest`. -/
structure At (il : IndexedList K V) (ref : ℕ) (stopped : Bool) (out rest : List (K × V)) : Prop where
  entries_eq : il.entries = out ++ rest
  remaining_eq : il.remaining ref = rest
  stopped_eq : ∃ idx, il.history.retentions[ref]? = some idx ∧
    decide (idx < il.history.retIdx) = stopped

section At

variable {il : IndexedList K V} {ref : ℕ} {stopped : Bool} {out rest : List (K × V)}

/-- A new iterator has output nothing. -/
theorem at_iterator (il : IndexedList K V) (retIdx : RetentionIndex) :
    (il.iterator retIdx).1.At (il.iterator retIdx).2 (decide (retIdx < il.retIdx)) []
      il.entries := by
  have hhistory := (il.perform_spec (c := .iterator retIdx) rfl).1
  have hentries : (il.iterator retIdx).1.entries = il.entries := by
    rw [IndexedList.entries_eq, IndexedList.entries_eq]
    exact il.perform_keeps fun _ => rfl
  have hnothing : il.history.seen il.list.iters.length = [] := by
    rw [History.seen, il.inv.outputs_new _ il.inv.length_eq.ge, List.map_nil]
  refine ⟨hentries, ?_, retIdx, ?_, ?_⟩
  · rw [remaining, iterator, hhistory, IndexedList.entries_eq, History.entries]
    refine congrArg _ (List.filter_eq_self.mpr fun x _ => decide_eq_true ?_)
    show x.ref ∉ il.history.seen il.list.iters.length
    rw [hnothing]
    exact List.not_mem_nil
  · rw [iterator, hhistory, il.inv.length_eq]
    exact List.getElem?_concat_length
  · rw [iterator, hhistory, il.retIdx_eq]
    rfl

/-- The iterator at a position. -/
theorem At.exists_iter (h : il.At ref stopped out rest) :
    ∃ it, il.list.iters[ref]? = some it ∧ it.stopped = stopped := by
  obtain ⟨idx, hidx, hstopped⟩ := h.stopped_eq
  have hlt : ref < il.list.iters.length := by
    rw [il.inv.length_eq]
    exact (List.getElem?_eq_some_iff.mp hidx).1
  have hit := List.getElem?_eq_getElem hlt
  refine ⟨_, hit, ?_⟩
  rw [← hstopped, Bool.eq_iff_iff, il.inv.stopped_iff ref _ idx hit hidx, il.inv.retIdx_eq,
    decide_eq_true_iff]

/-- A stopped iterator outputs nothing. -/
theorem At.nextWhile_stopped {σ : Type} (h : il.At ref true out rest)
    (predicate : σ → K → V → Option σ) (s : σ) :
    ∃ il', il.nextWhile ref predicate s = (il', [], s) ∧ il'.At ref true out rest := by
  obtain ⟨it, hit, hstopped⟩ := h.exists_iter
  obtain ⟨hhistory, hitems⟩ :=
    il.perform_spec (LinkedList.call_stopped hit hstopped (c := .nextWhile ref _) rfl)
  rw [History.record, History.output_nil] at hhistory
  refine ⟨_, ?_, (il.nextWhile_unchanged ref predicate s).1.trans h.entries_eq, ?_, ?_⟩
  · rw [IndexedList.nextWhile, hitems]
    rfl
  · rw [remaining, IndexedList.nextWhile, hhistory]
    exact h.remaining_eq
  · rw [IndexedList.nextWhile, hhistory]
    exact h.stopped_eq

/-- The entries taken while a predicate with a state holds, and its state after that. -/
def takeWhileM {σ : Type} (predicate : σ → K → V → Option σ) :
    σ → List (K × V) → List (K × V) × σ
  | s, [] => ([], s)
  | s, e :: entries =>
    match predicate s e.1 e.2 with
    | none => ([], s)
    | some s' =>
      let taken := takeWhileM predicate s' entries
      (e :: taken.1, taken.2)

omit [DecidableEq K] in
theorem takeWhile_accept {σ : Type} (predicate : σ → K → V → Option σ) (s₀ : σ) {s : σ}
    {asked : List (K × V)} (hs : accept predicate s₀ asked = some s) (entries : List (K × V)) :
    OrderedMap.takeWhile (fun accepted key val =>
        ((accept predicate s₀ accepted).bind fun s => predicate s key val).isSome) asked entries =
      (takeWhileM predicate s entries).1 ∧
    accept predicate s₀ (asked ++ (takeWhileM predicate s entries).1) =
      some (takeWhileM predicate s entries).2 := by
  induction entries generalizing s asked with
  | nil => exact ⟨rfl, by rwa [takeWhileM, List.append_nil]⟩
  | cons e entries ih =>
    rw [OrderedMap.takeWhile, takeWhileM, hs, Option.bind_some]
    cases he : predicate s e.1 e.2 with
    | none => exact ⟨rfl, by rwa [List.append_nil]⟩
    | some s' =>
      have hs' : accept predicate s₀ (asked ++ [e]) = some s' := by
        rw [accept, List.foldlM_append, show asked.foldlM _ s₀ = some s from hs]
        simpa using he
      obtain ⟨htaken, hstate⟩ := ih hs'
      rw [List.append_assoc] at hstate
      exact ⟨congrArg (e :: ·) htaken, hstate⟩

/-- **`NextWhile` outputs the next entries** that satisfy the predicate. -/
theorem At.nextWhile {σ : Type} (h : il.At ref false out rest) (predicate : σ → K → V → Option σ)
    (s : σ) : ∃ il' rest', il.nextWhile ref predicate s = (il', takeWhileM predicate s rest) ∧
      rest = (takeWhileM predicate s rest).1 ++ rest' ∧ il'.entries = il.entries ∧
      il'.At ref false (out ++ (takeWhileM predicate s rest).1) rest' := by
  obtain ⟨it, hit, hrun⟩ := h.exists_iter
  obtain ⟨list, xs, hnext, -, htaken, left, hleft, -⟩ := il.inv.nextWhile hit hrun
    fun accepted key val => ((accept predicate s accepted).bind fun s => predicate s key val).isSome
  obtain ⟨hhistory, hitems⟩ := il.perform_spec (c := .nextWhile ref _) (r := ⟨xs, true⟩)
    (by rw [LinkedList.call, hnext]; rfl)
  have hrest : rest = xs.map Item.pair ++ left.map Item.pair := by
    rw [← h.remaining_eq, remaining, hleft, List.map_append]
  have hnothing : accept predicate s [] = some s := rfl
  obtain ⟨htake, hstate⟩ := takeWhile_accept predicate s hnothing rest
  rw [show (il.history.unseen ref).map Item.pair = rest from h.remaining_eq, htake] at htaken
  rw [List.nil_append] at hstate
  have hentries := (il.nextWhile_unchanged ref predicate s).1
  refine ⟨_, left.map Item.pair, ?_, htaken ▸ hrest, hentries, ?_, ?_, ?_⟩
  · rw [IndexedList.nextWhile, hitems, htaken, hstate]
    rfl
  · rw [hentries, h.entries_eq, ← htaken, List.append_assoc, ← hrest]
  · rw [remaining, IndexedList.nextWhile, hhistory]
    exact congrArg _ (History.unseen_output hleft il.inv.rep.nodup)
  · rw [IndexedList.nextWhile, hhistory]
    exact h.stopped_eq

/-- **`Append`**: what it appends is new and comes last, both in the list and for the iterators. -/
theorem At.append (h : il.At ref stopped out rest) (items : List (K × V)) :
    (il.append items).1.At ref stopped out (rest ++ (il.append items).2) := by
  obtain ⟨xs, hhistory, hitems, -⟩ := il.append_history items
  have hincreasing := (il.append items).1.inv.increasing
  rw [hhistory, History.append, List.map_append, List.pairwise_append] at hincreasing
  have hnew : ∀ ys ⊆ il.history.appended, ∀ x ∈ xs, x.ref ∉ ys.map Item.ref := by
    intro ys hys x hx hmem
    obtain ⟨y, hy, href⟩ := List.mem_map.mp hmem
    exact (hincreasing.2.2 _ (List.mem_map_of_mem (hys hy)) _ (List.mem_map_of_mem hx)).ne href
  refine ⟨?_, ?_, ?_⟩
  · rw [(il.append_spec items).1, h.entries_eq, List.append_assoc]
  · rw [remaining, hhistory, History.unseen, History.liveItems_append (hnew _ il.inv.removed_sub),
      List.filter_append, List.map_append, ← h.remaining_eq, hitems]
    exact congrArg₂ _ rfl (congrArg _ (List.filter_eq_self.mpr fun x hx =>
      decide_eq_true (hnew _ (il.inv.outputs_sub ref) x hx)))
  · rw [hhistory]
    exact h.stopped_eq

/-- **`RemoveSelected`** does not concern an iterator that has output nothing. -/
theorem At.removeSelected (h : il.At ref stopped [] rest) (predicate : K → V → Bool) :
    (il.removeSelected predicate).1.At ref stopped [] (rest.filter fun e => !predicate e.1 e.2) ∧
      (il.removeSelected predicate).2 = rest.filter fun e => predicate e.1 e.2 := by
  obtain ⟨list, xs, hremove, -⟩ := il.inv.removeSelected fun _ => predicate
  have hhistory := (il.perform_spec (c := .removeSelected fun _ => predicate) (r := ⟨xs, true⟩)
    (by rw [LinkedList.call, hremove]; rfl)).1
  obtain ⟨hentries, hitems⟩ := Prod.ext_iff.mp (il.removeSelected_eq predicate)
  simp only [h.entries_eq, List.nil_append] at hentries hitems
  -- the iterator has output none of the items in the list
  have hunseen : ∀ x ∈ il.history.liveItems, decide (x.ref ∉ il.history.seen ref) = true := by
    have hall := congrArg List.length
      (h.remaining_eq.trans (h.entries_eq.symm.trans il.entries_eq))
    rw [remaining, History.entries, List.length_map, List.length_map] at hall
    exact List.length_filter_eq_length_iff.mp hall
  refine ⟨⟨hentries, ?_, ?_⟩, hitems⟩
  · rw [← hentries, IndexedList.entries_eq, remaining, IndexedList.removeSelected, hhistory]
    refine congrArg _ (List.filter_eq_self.mpr fun x hx => hunseen x ?_)
    have hx := List.mem_filter.mp hx
    refine List.mem_filter.mpr ⟨hx.1, decide_eq_true fun hremoved => ?_⟩
    exact of_decide_eq_true hx.2 (List.map_append ▸ List.mem_append_left _ hremoved)
  · rw [IndexedList.removeSelected, hhistory]
    exact h.stopped_eq

end At

end IndexedList

end Mir
