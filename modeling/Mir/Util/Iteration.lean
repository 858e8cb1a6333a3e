import Mir.Lib.OrderedMap
import Mir.Util.LinkedList

/-!
# Iterating over a list that changes

Runs of calls on one `indexedlist.IndexedList` and on any number of iterators over it. Each call holds
the lock of the list, so the calls of a run come one after another.

`History` sums up the replies of a run: the items that were appended and removed, in the order of the
replies, and those that each iterator has output. `Inv` relates it to the pointers: the elements in
the list are those that were appended and not removed, and the position of each iterator that has
not been garbage-collected is that of a reader of them (`LinkedChain.Tracks`). Every call returns and
keeps the invariant, so it holds in all runs; the calls that append or remove do to the items what the
operations of an insertion-ordered map do (`OrderedMap`).

An element that is appended again after its removal is a new one: it has another reference.
-/

namespace Mir.LinkedList

open LinkedChain FallibleLoop

variable {K V : Type}

/-! ### Calls -/

/-- The calls on a list and its iterators. -/
inductive Call (K V : Type)
  | append (items : List (K × V))
  | remove (keys : List K)
  | removeSelected (predicate : ItemPredicate K V)
  | iterator (retIdx : RetentionIndex)
  | garbageCollect (retIdx : RetentionIndex)
  | next (i : ℕ)
  | nextWhile (i : ℕ) (predicate : ItemPredicate K V)

/-- What a call returns: items, and the Boolean of the calls that return one. -/
structure Reply (K V : Type) where
  items : List (Item K V)
  ok : Bool

/-- The iterator that a call is made on. -/
def Call.iterates : Call K V → Option ℕ
  | .next i => some i
  | .nextWhile i _ => some i
  | _ => none

/-- A call. -/
def call [DecidableEq K] (il : LinkedList K V) : Call K V → Option (LinkedList K V × Reply K V)
  | .append items => (il.append items).map fun r => (r.1, ⟨r.2, true⟩)
  | .remove keys => (il.remove keys).map fun r => (r.1, ⟨r.2, true⟩)
  | .removeSelected predicate => (il.removeSelected predicate).map fun r => (r.1, ⟨r.2, true⟩)
  | .iterator retIdx => some ((il.iterator retIdx).1, ⟨[], true⟩)
  | .garbageCollect retIdx => some (il.garbageCollect retIdx, ⟨[], true⟩)
  | .next i => (il.next i).map fun r => (r.1, ⟨r.2.toList, r.2.isSome⟩)
  | .nextWhile i predicate => (il.nextWhile i predicate).map fun r => (r.1, ⟨r.2.1, r.2.2⟩)

/-! ### Histories -/

/-- What has happened to a list: the items that were appended and removed, those that each iterator has
output, the retention indices of the iterators, and the one up to which garbage was collected. -/
structure History (K V : Type) where
  appended : List (Item K V)
  removed : List (Item K V)
  outputs : ℕ → List (Item K V)
  retentions : List RetentionIndex
  retIdx : RetentionIndex

namespace History

/-- The history of a new list. -/
def empty : History K V := ⟨[], [], fun _ => [], [], 0⟩

/-- The elements that were appended and not removed. -/
def live (h : History K V) : List ℕ :=
  (h.appended.map Item.ref).filter (· ∉ h.removed.map Item.ref)

/-- The items that were appended and not removed. -/
def liveItems (h : History K V) : List (Item K V) :=
  h.appended.filter (·.ref ∉ h.removed.map Item.ref)

/-- Their keys and values. -/
def entries (h : History K V) : List (K × V) := h.liveItems.map Item.pair

/-- The elements that an iterator has output. -/
def seen (h : History K V) (i : ℕ) : List ℕ := (h.outputs i).map Item.ref

/-- The items that are in the list and that an iterator has not output. -/
def unseen (h : History K V) (i : ℕ) : List (Item K V) := h.liveItems.filter (·.ref ∉ h.seen i)

/-- Items are appended. -/
def append (h : History K V) (items : List (Item K V)) : History K V :=
  { h with appended := h.appended ++ items }

/-- Items are removed. -/
def remove (h : History K V) (items : List (Item K V)) : History K V :=
  { h with removed := h.removed ++ items }

/-- Items are output by an iterator. -/
def output (h : History K V) (i : ℕ) (items : List (Item K V)) : History K V :=
  { h with outputs := Function.update h.outputs i (h.outputs i ++ items) }

/-- The reply to a call is recorded. -/
def record (h : History K V) (items : List (Item K V)) : Call K V → History K V
  | .append _ => h.append items
  | .remove _ => h.remove items
  | .removeSelected _ => h.remove items
  | .iterator retIdx => { h with retentions := h.retentions ++ [retIdx] }
  | .garbageCollect retIdx => { h with retIdx := if h.retIdx < retIdx then retIdx else h.retIdx }
  | .next i => h.output i items
  | .nextWhile i _ => h.output i items

variable {h : History K V} {x : Item K V} {i j : ℕ} {front tail : List (Item K V)}

theorem append_nil : h.append [] = h := by
  rw [append, List.append_nil]

theorem remove_nil : h.remove [] = h := by
  rw [remove, List.append_nil]

theorem output_nil : h.output i [] = h := by
  rw [output, List.append_nil, Function.update_eq_self]

theorem append_append (xs ys : List (Item K V)) :
    (h.append xs).append ys = h.append (xs ++ ys) := by
  simp only [append, List.append_assoc]

theorem remove_remove (xs ys : List (Item K V)) :
    (h.remove xs).remove ys = h.remove (xs ++ ys) := by
  simp only [remove, List.append_assoc]

theorem output_output (xs ys : List (Item K V)) :
    (h.output i xs).output i ys = h.output i (xs ++ ys) := by
  simp only [output, Function.update_self, Function.update_idem, List.append_assoc]

theorem seen_output_self (xs : List (Item K V)) :
    (h.output i xs).seen i = h.seen i ++ xs.map Item.ref := by
  simp only [seen, output, Function.update_self, List.map_append]

theorem seen_output_of_ne (hne : j ≠ i) (xs : List (Item K V)) :
    (h.output i xs).seen j = h.seen j := by
  simp only [seen, output, Function.update_of_ne hne]

theorem live_eq : h.live = h.liveItems.map Item.ref := List.filter_map

theorem map_ref_unseen : (h.unseen i).map Item.ref = h.live.filter (· ∉ h.seen i) := by
  rw [live_eq, List.filter_map]
  rfl

theorem liveItems_append {xs : List (Item K V)} (hxs : ∀ x ∈ xs, x.ref ∉ h.removed.map Item.ref) :
    (h.append xs).liveItems = h.liveItems ++ xs := by
  rw [liveItems, append, List.filter_append]
  exact congrArg _ (List.filter_eq_self.mpr fun x hx => decide_eq_true (hxs x hx))

theorem liveItems_remove (hlive : h.liveItems = front ++ x :: tail) (hnodup : h.live.Nodup) :
    (h.remove [x]).liveItems = front ++ tail := by
  have hsplit : (h.remove [x]).liveItems = h.liveItems.filter (·.ref ≠ x.ref) := by
    rw [liveItems, liveItems, remove, List.filter_filter]
    refine List.filter_congr fun y _ => ?_
    rw [Bool.eq_iff_iff]
    simp [not_or, and_comm]
  rw [live_eq, hlive, List.map_append, List.map_cons, List.nodup_middle, List.nodup_cons,
    ← List.map_append] at hnodup
  have hne : ∀ y ∈ front ++ tail, y.ref ≠ x.ref := fun y hy heq =>
    hnodup.1 (heq ▸ List.mem_map_of_mem hy)
  rw [hsplit, hlive, List.filter_append, List.filter_cons_of_neg (by simp), ← List.filter_append,
    List.filter_eq_self.mpr (by simpa using hne)]

theorem unseen_output (hunseen : h.unseen i = front ++ tail) (hnodup : h.live.Nodup) :
    (h.output i front).unseen i = tail := by
  have hsplit : (h.output i front).unseen i =
      (h.unseen i).filter (·.ref ∉ front.map Item.ref) := by
    rw [unseen, unseen, seen_output_self, List.filter_filter]
    refine List.filter_congr fun y _ => ?_
    rw [Bool.eq_iff_iff]
    simp only [List.mem_append, not_or, decide_eq_true_eq, Bool.and_eq_true]
    exact and_comm
  have hdisjoint := hnodup.filter (· ∉ h.seen i)
  rw [← map_ref_unseen, hunseen, List.map_append] at hdisjoint
  have hfront : front.filter (·.ref ∉ front.map Item.ref) = [] :=
    List.filter_eq_nil_iff.mpr fun y hy hnot =>
      of_decide_eq_true hnot (List.mem_map_of_mem hy)
  rw [hsplit, hunseen, List.filter_append, hfront, List.nil_append]
  exact List.filter_eq_self.mpr fun y hy => decide_eq_true fun hmem =>
    List.disjoint_of_nodup_append hdisjoint hmem (List.mem_map_of_mem hy)

end History

/-! ### The invariant -/

/-- **The invariant** of a list and its history. -/
structure Inv [DecidableEq K] (h : History K V) (il : LinkedList K V) : Prop where
  rep : Rep il h.live
  increasing : (h.appended.map Item.ref).Pairwise (· < ·)
  stored : ∀ x ∈ h.appended, il.item x.ref = some x
  removed_sub : h.removed ⊆ h.appended
  outputs_sub : ∀ i, h.outputs i ⊆ h.appended
  outputs_new : ∀ i, h.retentions.length ≤ i → h.outputs i = []
  length_eq : il.iters.length = h.retentions.length
  listed_iff : ∀ i idx, i ∈ (il.iterators.lookup idx).getD [] ↔
    h.retentions[i]? = some idx ∧ il.retIdx ≤ idx
  stopped_iff : ∀ (i : ℕ) (it : ElementIterator) (idx : RetentionIndex),
    il.iters[i]? = some it → h.retentions[i]? = some idx → (it.stopped = true ↔ idx < il.retIdx)
  tracks : ∀ (i : ℕ) (it : ElementIterator), il.iters[i]? = some it → it.stopped = false →
    Tracks h.live (h.seen i) it.lastOutput
  retIdx_eq : il.retIdx = h.retIdx

section Inv

variable [DecidableEq K] {h : History K V} {il : LinkedList K V} {e : ℕ} {x : Item K V}

theorem inv_new : Inv (History.empty : History K V) new where
  rep := rep_new
  increasing := .nil
  stored := nofun
  removed_sub := List.Subset.refl _
  outputs_sub _ := List.Subset.refl _
  outputs_new _ _ := rfl
  length_eq := rfl
  listed_iff i idx := by
    rw [new, AList.lookup_empty]
    simp [History.empty]
  stopped_iff i it idx hit := by simp [new] at hit
  tracks i it hit := by simp [new] at hit
  retIdx_eq := rfl

theorem Inv.ref_lt (hinv : Inv h il) (hx : x ∈ h.appended) : x.ref < il.heap.length :=
  item_isSome.mp (Option.isSome_iff_exists.mpr ⟨x, hinv.stored x hx⟩)

theorem Inv.seen_lt (hinv : Inv h il) {i o : ℕ} (ho : o ∈ h.seen i) : o < il.heap.length := by
  obtain ⟨y, hy, rfl⟩ := List.mem_map.mp ho
  exact hinv.ref_lt (hinv.outputs_sub i hy)

/-- An iterator that has not been stopped is in the map. -/
theorem Inv.listed_of_running (hinv : Inv h il) {i : ℕ} {it : ElementIterator}
    (hit : il.iters[i]? = some it) (hrun : it.stopped = false) : i ∈ il.listed := by
  have hi : i < h.retentions.length :=
    hinv.length_eq ▸ (List.getElem?_eq_some_iff.mp hit).1
  have hidx : h.retentions[i]? = some h.retentions[i] := List.getElem?_eq_getElem hi
  refine mem_listed.mpr ⟨h.retentions[i], (hinv.listed_iff i _).mpr ⟨hidx, ?_⟩⟩
  refine UInt64.not_lt.mp fun hlt => ?_
  rw [(hinv.stopped_iff i it _ hit hidx).mpr hlt] at hrun
  cases hrun

theorem Inv.stored_of_live (hinv : Inv h il) (hx : x ∈ h.liveItems) : il.item x.ref = some x :=
  hinv.stored x (List.mem_of_mem_filter hx)

/-- The keys in the index are those of the items in the list. -/
theorem Inv.mem_index_iff (hinv : Inv h il) {key : K} :
    key ∈ il.index ↔ key ∈ h.entries.map Prod.fst := by
  rw [← not_iff_not, hinv.rep.notMem_index, History.live_eq, History.entries, List.map_map]
  constructor
  · intro hnot hmem
    obtain ⟨y, hy, rfl⟩ := List.mem_map.mp hmem
    exact hnot y.ref (List.mem_map_of_mem hy) y (hinv.stored_of_live hy) rfl
  · rintro hnot r hr y hitem rfl
    obtain ⟨z, hz, rfl⟩ := List.mem_map.mp hr
    rw [hinv.stored_of_live hz] at hitem
    exact hnot (Option.some.inj hitem ▸ List.mem_map_of_mem hz)

theorem Inv.keys_nodup (hinv : Inv h il) : (h.entries.map Prod.fst).Nodup := by
  have hnodup := hinv.rep.nodup
  have hlookup : ∀ x ∈ h.liveItems, il.index.lookup x.key = some x.ref := fun x hx =>
    (hinv.rep.index_iff _ _).mpr ⟨History.live_eq ▸ List.mem_map_of_mem hx, x,
      hinv.stored_of_live hx, rfl⟩
  rw [History.live_eq] at hnodup
  rw [History.entries, List.map_map]
  refine List.Nodup.map_on (fun x hx y hy hkey => ?_) hnodup.of_map
  have href := hlookup x hx
  rw [show x.key = y.key from hkey, hlookup y hy] at href
  rw [← Option.some_inj, ← hinv.stored_of_live hx, ← hinv.stored_of_live hy, Option.some.inj href]

/-! ### Appending and removing keep the invariant -/

/-- One iteration of the loop of `Append`. -/
theorem Inv.appendStep (hinv : Inv h il) (acc : List (Item K V)) (kv : K × V) :
    ∃ il' xs, LinkedList.appendStep (il, acc) kv = some (il', acc ++ xs) ∧ Inv (h.append xs) il' ∧
      OrderedMap.appendStep (h.entries, acc.map Item.pair) kv =
        ((h.append xs).entries, (acc ++ xs).map Item.pair) := by
  have halloc := hinv.rep.alloc kv.1 kv.2
  have hstored : ∀ x ∈ h.appended, (il.alloc kv.1 kv.2).1.item x.ref = some x := fun x hx => by
    rw [item_alloc_of_lt (hinv.ref_lt hx), hinv.stored x hx]
  by_cases hkey : kv.1 ∈ il.index
  · refine ⟨(il.alloc kv.1 kv.2).1, [], ?_, ?_, ?_⟩
    · have hold : (il.alloc kv.1 kv.2).1.appendElement il.heap.length =
          some ((il.alloc kv.1 kv.2).1, false) := by
        rw [appendElement, item_alloc_self]
        exact if_pos hkey
      show ((il.alloc kv.1 kv.2).1.appendElement il.heap.length).bind _ = _
      rw [hold, List.append_nil]
      rfl
    · rw [History.append_nil]
      exact { hinv with rep := halloc, stored := hstored }
    · rw [History.append_nil, List.append_nil]
      exact if_pos (hinv.mem_index_iff.mp hkey)
  · obtain ⟨il', happend, hrep, hitem, hiters, hiterators, hretIdx⟩ :=
      hinv.rep.appendElement kv.2 hkey
    set x : Item K V := ⟨il.heap.length, kv.1, kv.2⟩ with hx
    have hnew : x.ref ∉ h.removed.map Item.ref := fun hmem => by
      obtain ⟨y, hy, href⟩ := List.mem_map.mp hmem
      exact absurd (hinv.ref_lt (hinv.removed_sub hy)) (by rw [href]; exact lt_irrefl _)
    have hitems : (h.append [x]).liveItems = h.liveItems ++ [x] :=
      History.liveItems_append (List.forall_mem_singleton.mpr hnew)
    have hlive : (h.append [x]).live = h.live ++ [x.ref] := by
      rw [History.live_eq, hitems, List.map_append, ← History.live_eq]
      rfl
    refine ⟨il', [x], ?_, ?_, ?_⟩
    · show ((il.alloc kv.1 kv.2).1.appendElement il.heap.length).bind _ = _
      rw [happend]
      rfl
    · refine ⟨?_, ?_, ?_, ?_, ?_, hinv.outputs_new, ?_, ?_, ?_, ?_, hretIdx.trans hinv.retIdx_eq⟩
      · rw [hlive]
        exact hrep
      · simp only [History.append, List.map_append, List.map_singleton, List.pairwise_append]
        refine ⟨hinv.increasing, List.pairwise_singleton _ _, fun r hr y hy => ?_⟩
        obtain ⟨z, hz, rfl⟩ := List.mem_map.mp hr
        rw [List.mem_singleton.mp hy]
        exact hinv.ref_lt hz
      · refine forall_mem_concat (fun y hy => ?_) ?_
        · rw [hitem, hstored y hy]
        · rw [hitem]
          exact item_alloc_self
      · exact List.Subset.trans hinv.removed_sub (List.subset_append_left _ _)
      · exact fun i => List.Subset.trans (hinv.outputs_sub i) (List.subset_append_left _ _)
      · rw [hiters]
        exact hinv.length_eq
      · rw [hiterators, hretIdx]
        exact hinv.listed_iff
      · rw [hiters, hretIdx]
        exact hinv.stopped_iff
      · intro i it hit hrun
        rw [hiters] at hit
        rw [hlive]
        exact (hinv.tracks i it hit hrun).snoc fun o ho => hinv.seen_lt ho
    · rw [History.entries.eq_def (h.append [x]), hitems, List.map_append, List.map_append]
      exact if_neg (mt hinv.mem_index_iff.mpr hkey)

/-- A loop that appends or removes one item after the other, as the loop `F` does to their keys and
values. -/
theorem Inv.loop {A : Type} {f : LinkedList K V × List (Item K V) → A →
      Option (LinkedList K V × List (Item K V))} {g : History K V → List (Item K V) → History K V}
    {F : List (K × V) × List (K × V) → A → List (K × V) × List (K × V)} (hnil : ∀ h, g h [] = h)
    (hassoc : ∀ h xs ys, g (g h xs) ys = g h (xs ++ ys))
    (hstep : ∀ {h : History K V} {il : LinkedList K V}, Inv h il → ∀ acc a,
      ∃ il' xs, f (il, acc) a = some (il', acc ++ xs) ∧ Inv (g h xs) il' ∧
        F (h.entries, acc.map Item.pair) a = ((g h xs).entries, (acc ++ xs).map Item.pair))
    (hinv : Inv h il) (l : List A) :
    ∃ il' xs, l.foldlM f (il, []) = some (il', xs) ∧ Inv (g h xs) il' ∧
      l.foldl F (h.entries, []) = ((g h xs).entries, xs.map Item.pair) := by
  obtain ⟨⟨il', xs⟩, hloop, hinv', hspec⟩ := foldlM_completes (f := f) (l := l)
    (I := fun visited (acc : LinkedList K V × List (Item K V)) => Inv (g h acc.2) acc.1 ∧
      visited.foldl F (h.entries, []) = ((g h acc.2).entries, acc.2.map Item.pair))
    (b := (il, [])) (by rw [hnil]; exact ⟨hinv, rfl⟩) (by
      rintro visited a - - ⟨il₁, acc⟩ ⟨hinv₁, hspec⟩
      obtain ⟨il₂, xs, hf, hinv₂, hF⟩ := hstep hinv₁ acc a
      rw [hassoc] at hinv₂ hF
      refine ⟨_, hf, hinv₂, ?_⟩
      rw [List.foldl_append, hspec]
      exact hF)
  exact ⟨il', xs, hloop, hinv', hspec⟩

/-- `Append` returns and keeps the invariant. -/
theorem Inv.append (hinv : Inv h il) (items : List (K × V)) :
    ∃ il' xs, il.append items = some (il', xs) ∧ Inv (h.append xs) il' ∧
      OrderedMap.append h.entries items = ((h.append xs).entries, xs.map Item.pair) :=
  hinv.loop (fun _ => History.append_nil) (fun _ => History.append_append) Inv.appendStep items

/-- **Removing an element** keeps the invariant. -/
theorem Inv.removeElement (hinv : Inv h il) {before after : List (Item K V)}
    (hlive : h.liveItems = before ++ x :: after) :
    ∃ il', il.removeElement x.ref = some il' ∧ il'.item x.ref = some x ∧
      (h.remove [x]).liveItems = before ++ after ∧ Inv (h.remove [x]) il' := by
  have hmem : x ∈ h.liveItems := by simp [hlive]
  have hx : x ∈ h.appended := List.mem_of_mem_filter hmem
  have hitem := hinv.stored_of_live hmem
  have hrep := hinv.rep
  have hnodup := hrep.nodup
  have hitems := History.liveItems_remove hlive hnodup
  set front := before.map Item.ref
  set tail := after.map Item.ref
  have hlive' : (h.remove [x]).live = front ++ tail := by
    rw [History.live_eq, hitems, List.map_append]
  have hlive : h.live = front ++ x.ref :: tail := by
    rw [History.live_eq, hlive, List.map_append, List.map_cons]
  rw [hlive] at hrep hnodup
  obtain ⟨il', hremove, hrep', hitem', hiters, hiterators, hretIdx⟩ := hrep.removeElement
  have hprev : il.prevOf x.ref = front.getLast? := (hrep.chain front x.ref tail rfl).1
  have hloop : il.prevOf x.ref ≠ some x.ref := by
    rw [hprev]
    exact fun heq =>
      List.disjoint_of_nodup_append hnodup (List.mem_of_getLast? heq) List.mem_cons_self
  -- the iterators keep their state, except for those that have output the element last
  have hmoved : ∀ (i : ℕ) (it' : ElementIterator), il'.iters[i]? = some it' →
      ∃ it, il.iters[i]? = some it ∧ it'.stopped = it.stopped ∧ (i ∈ il.listed → it'.lastOutput =
        if it.lastOutput = some x.ref then front.getLast? else it.lastOutput) := by
    intro i it' hit'
    rw [hiters, getElem?_updateIterators hloop, hprev] at hit'
    obtain ⟨it, hit, rfl⟩ := Option.map_eq_some_iff.mp hit'
    refine ⟨it, hit, ?_⟩
    by_cases hi : i ∈ il.listed
    · rw [if_pos hi, updateIterator]
      split <;> exact ⟨rfl, fun _ => rfl⟩
    · rw [if_neg hi]
      exact ⟨rfl, fun hlisted => absurd hlisted hi⟩
  have hlen : il'.iters.length = il.iters.length := by
    rw [hiters, length_updateIterators]
  refine ⟨il', hremove, (hitem' _).trans hitem, hitems, ?_⟩
  refine ⟨hlive' ▸ hrep', hinv.increasing, fun y hy => (hitem' _).trans (hinv.stored y hy), ?_,
    hinv.outputs_sub, hinv.outputs_new, ?_, ?_, ?_, ?_, hretIdx.trans hinv.retIdx_eq⟩
  · exact List.append_subset.mpr ⟨hinv.removed_sub, List.cons_subset.mpr ⟨hx, List.nil_subset _⟩⟩
  · exact hlen.trans hinv.length_eq
  · rw [hiterators, hretIdx]
    exact hinv.listed_iff
  · intro i it' idx hit' hidx
    obtain ⟨it, hit, hstopped, -⟩ := hmoved i it' hit'
    rw [hstopped, hretIdx]
    exact hinv.stopped_iff i it idx hit hidx
  · intro i it' hit' hrun
    obtain ⟨it, hit, hstopped, hlast⟩ := hmoved i it' hit'
    rw [hstopped] at hrun
    have htracks := hinv.tracks i it hit hrun
    rw [hlive] at htracks
    rw [hlast (hinv.listed_of_running hit hrun), hlive']
    exact htracks.remove hnodup

/-- One iteration of the loop of `Remove`. -/
theorem Inv.removeStep (hinv : Inv h il) (acc : List (Item K V)) (key : K) :
    ∃ il' xs, LinkedList.removeStep (il, acc) key = some (il', acc ++ xs) ∧ Inv (h.remove xs) il' ∧
      OrderedMap.removeStep (h.entries, acc.map Item.pair) key =
        ((h.remove xs).entries, (acc ++ xs).map Item.pair) := by
  cases hlookup : il.index.lookup key with
  | none =>
    refine ⟨il, [], ?_, ?_⟩
    · rw [LinkedList.removeStep, hlookup, List.append_nil]
    · rw [History.remove_nil, List.append_nil]
      exact ⟨hinv, OrderedMap.removeStep_of_notMem
        (mt hinv.mem_index_iff.mpr (AList.lookup_eq_none.mp hlookup))⟩
  | some e =>
    obtain ⟨he, y, hitem, rfl⟩ := (hinv.rep.index_iff key e).mp hlookup
    rw [History.live_eq] at he
    obtain ⟨x, hx, rfl⟩ := List.mem_map.mp he
    rw [hinv.stored_of_live hx, Option.some_inj] at hitem
    subst hitem
    obtain ⟨front, tail, hlive⟩ := List.append_of_mem hx
    obtain ⟨il', hremove, hitem', hitems, hinv'⟩ := hinv.removeElement hlive
    refine ⟨il', [x], ?_, hinv', ?_⟩
    · rw [LinkedList.removeStep, hlookup]
      show (il.removeElement x.ref).bind _ = _
      rw [hremove, Option.bind_some, hitem']
      rfl
    · have hentries : h.entries = front.map Item.pair ++ x.pair :: tail.map Item.pair := by
        rw [History.entries, hlive, List.map_append, List.map_cons]
      rw [History.entries.eq_def (h.remove [x]), hitems, List.map_append, List.map_append]
      exact OrderedMap.removeStep_of_mem hinv.keys_nodup hentries

/-- `Remove` returns and keeps the invariant. -/
theorem Inv.remove (hinv : Inv h il) (keys : List K) :
    ∃ il' xs, il.remove keys = some (il', xs) ∧ Inv (h.remove xs) il' ∧
      OrderedMap.remove h.entries keys = ((h.remove xs).entries, xs.map Item.pair) :=
  hinv.loop (fun _ => History.remove_nil) (fun _ => History.remove_remove) Inv.removeStep keys

/-- The loop of `RemoveSelected`: the items before the current one have been kept. -/
theorem Inv.removeSelectedFrom (predicate : ItemPredicate K V) {n : ℕ} {rest : List (Item K V)}
    (kept : List (Item K V)) (asked : List (K × V)) (removed : List (Item K V)) (hinv : Inv h il)
    (hlive : h.liveItems = kept ++ rest) (hn : rest.length ≤ n) :
    ∃ il' xs, LinkedList.removeSelectedFrom predicate n il (rest.map Item.ref).head? asked removed =
      some (il', removed ++ xs) ∧ Inv (h.remove xs) il' ∧
      (h.remove xs).entries = kept.map Item.pair ++
        (OrderedMap.removeSelected predicate asked (rest.map Item.pair)).1 ∧
      xs.map Item.pair = (OrderedMap.removeSelected predicate asked (rest.map Item.pair)).2 := by
  induction rest generalizing n kept h il asked removed with
  | nil =>
    refine ⟨il, [], ?_, ?_, ?_, rfl⟩
    · rw [List.map_nil, List.head?_nil, List.append_nil]
      cases n <;> rfl
    · rw [History.remove_nil]
      exact hinv
    · rw [History.remove_nil, History.entries, hlive, List.append_nil]
      exact (List.append_nil _).symm
  | cons x rest ih =>
    obtain ⟨n, rfl⟩ : ∃ m, n = m + 1 := Nat.exists_eq_succ_of_ne_zero (by simp at hn; omega)
    have hn' : rest.length ≤ n := Nat.le_of_succ_le_succ hn
    have hchain := hinv.rep.chain
    rw [History.live_eq, hlive, List.map_append, List.map_cons] at hchain
    have hnext : il.nextOf x.ref = (rest.map Item.ref).head? := (hchain _ x.ref _ rfl).2
    have hx := hinv.stored_of_live (x := x) (by simp [hlive])
    rw [List.map_cons, List.map_cons, List.head?_cons, LinkedList.removeSelectedFrom, hx, hnext,
      OrderedMap.removeSelected]
    by_cases hselected : predicate asked x.key x.val = true
    · obtain ⟨il₁, hremove, -, hlive₁, hinv₁⟩ := hinv.removeElement hlive
      obtain ⟨il', xs, hrest, hinv', hentries, hpairs⟩ :=
        ih kept (asked ++ [x.pair]) (removed ++ [x]) hinv₁ hlive₁ hn'
      rw [show predicate asked x.pair.1 x.pair.2 = true from hselected, if_pos rfl]
      refine ⟨il', [x] ++ xs, ?_, ?_, ?_, ?_⟩
      · rw [← List.append_assoc, ← hrest]
        refine (if_pos hselected).trans ?_
        rw [hremove]
        rfl
      · rw [← History.remove_remove]
        exact hinv'
      · rw [← History.remove_remove, hentries]
      · rw [List.map_append, hpairs]
        rfl
    · obtain ⟨il', xs, hrest, hinv', hentries, hpairs⟩ :=
        ih (kept ++ [x]) (asked ++ [x.pair]) removed hinv (by simpa using hlive) hn'
      rw [Bool.eq_false_iff.mpr (show ¬predicate asked x.pair.1 x.pair.2 = true from hselected)]
      refine ⟨il', xs, (if_neg hselected).trans hrest, hinv', ?_, hpairs⟩
      rw [hentries, List.map_append, List.append_assoc]
      rfl

/-- `RemoveSelected` returns and keeps the invariant. -/
theorem Inv.removeSelected (hinv : Inv h il) (predicate : ItemPredicate K V) :
    ∃ il' xs, il.removeSelected predicate = some (il', xs) ∧ Inv (h.remove xs) il' ∧
      OrderedMap.removeSelected predicate [] h.entries =
        ((h.remove xs).entries, xs.map Item.pair) := by
  have hlength := hinv.rep.length_le
  rw [History.live_eq, List.length_map] at hlength
  obtain ⟨il', xs, hloop, hinv', hentries, hpairs⟩ :=
    hinv.removeSelectedFrom predicate [] [] [] rfl hlength
  refine ⟨il', xs, ?_, hinv', Prod.ext hentries.symm hpairs.symm⟩
  rw [LinkedList.removeSelected, hinv.rep.first_eq, History.live_eq]
  exact hloop

/-! ### New iterators and garbage collection keep the invariant -/

omit [DecidableEq K] in
theorem getElem?_concat_eq_some {α : Type} {l : List α} {a b : α} {i : ℕ} :
    (l ++ [a])[i]? = some b ↔ l[i]? = some b ∨ i = l.length ∧ a = b := by
  rcases lt_trichotomy i l.length with hlt | rfl | hgt
  · rw [List.getElem?_append_left hlt]
    simp [hlt.ne]
  · simp
  · simp [List.getElem?_eq_none, hgt.le, hgt.ne', Nat.succ_le_of_lt hgt]

/-- `Iterator` keeps the invariant. -/
theorem Inv.iterator (hinv : Inv h il) (retIdx : RetentionIndex) :
    Inv { h with retentions := h.retentions ++ [retIdx] } (il.iterator retIdx).1 := by
  have hfresh : h.outputs il.iters.length = [] := hinv.outputs_new _ hinv.length_eq.ge
  -- the new iterator has output nothing, the others are as before
  have hnew : ∀ (stopped : Bool) (iterators : GoMap RetentionIndex (List ℕ)),
      (stopped = true ↔ retIdx < il.retIdx) →
      (∀ i idx, i ∈ (iterators.lookup idx).getD [] ↔
        (h.retentions ++ [retIdx])[i]? = some idx ∧ il.retIdx ≤ idx) →
      Inv { h with retentions := h.retentions ++ [retIdx] }
        { il with iters := il.iters ++ [⟨none, stopped⟩], iterators := iterators } := by
    intro stopped iterators hstopped hlisted
    refine { hinv with
      rep := { hinv.rep with }, outputs_new := fun i hi => hinv.outputs_new i (le_trans (by simp) hi)
      length_eq := by simp [hinv.length_eq], listed_iff := hlisted
      stopped_iff := fun i it idx hit hidx => ?_, tracks := fun i it hit hrun => ?_ }
    · rcases getElem?_concat_eq_some.mp hit with hold | ⟨rfl, rfl⟩
      · rcases getElem?_concat_eq_some.mp hidx with hidx | ⟨hi, -⟩
        · exact hinv.stopped_iff i it idx hold hidx
        · rw [hi, ← hinv.length_eq, List.getElem?_eq_none (le_refl _)] at hold
          cases hold
      · rw [hinv.length_eq, List.getElem?_concat_length] at hidx
        rw [← Option.some.inj hidx]
        exact hstopped
    · rcases getElem?_concat_eq_some.mp hit with hold | ⟨rfl, rfl⟩
      · exact hinv.tracks i it hold hrun
      · rw [History.seen, hfresh]
        exact tracks_nil h.live
  rw [LinkedList.iterator]
  by_cases hlt : retIdx < il.retIdx
  · rw [if_pos hlt]
    refine hnew true il.iterators (by simpa using hlt) fun i idx => ?_
    refine (hinv.listed_iff i idx).trans (and_congr_left fun hle => ?_)
    refine (getElem?_concat_eq_some.trans (or_iff_left ?_)).symm
    rintro ⟨-, rfl⟩
    exact UInt64.not_lt.mpr hle hlt
  · rw [if_neg hlt]
    refine hnew false _ (by simpa using hlt) fun i idx => ?_
    rw [GoMap.lookup_insert_eq, getElem?_concat_eq_some, ← hinv.length_eq]
    rcases eq_or_ne idx retIdx with rfl | hne
    · rw [if_pos rfl, Option.getD_some, List.mem_append, List.mem_singleton, hinv.listed_iff]
      have hle : il.retIdx ≤ idx := UInt64.not_lt.mp hlt
      simp [hle]
    · rw [if_neg hne, hinv.listed_iff]
      simp [hne.symm]

/-- One iteration of the loop of `GarbageCollect` keeps the invariant. -/
theorem Inv.collectStep (hinv : Inv h il) (hmax : il.retIdx.toNat + 1 < 2 ^ 64) :
    Inv { h with retIdx := il.collectStep.retIdx } il.collectStep ∧
      il.collectStep.retIdx.toNat = il.retIdx.toNat + 1 := by
  have hnat : (il.retIdx + 1).toNat = il.retIdx.toNat + 1 := by
    rw [UInt64.toNat_add]
    exact Nat.mod_eq_of_lt hmax
  have hlt_iff : ∀ idx : RetentionIndex,
      idx < il.retIdx + 1 ↔ idx = il.retIdx ∨ idx < il.retIdx := by
    intro idx
    rw [UInt64.lt_iff_toNat_lt, UInt64.lt_iff_toNat_lt, ← UInt64.toNat_inj, hnat]
    omega
  have hle_iff : ∀ idx : RetentionIndex,
      il.retIdx + 1 ≤ idx ↔ il.retIdx ≤ idx ∧ idx ≠ il.retIdx := by
    intro idx
    rw [UInt64.le_iff_toNat_le, UInt64.le_iff_toNat_le, Ne, ← UInt64.toNat_inj, hnat]
    omega
  -- the iterators of the current retention index are stopped
  have hcollected : ∀ (i : ℕ) (it' : ElementIterator), il.collectStep.iters[i]? = some it' →
      ∃ it, il.iters[i]? = some it ∧ it'.lastOutput = it.lastOutput ∧
        (it'.stopped = true ↔ h.retentions[i]? = some il.retIdx ∨ it.stopped = true) := by
    intro i it' hit'
    have hget := getElem?_foldl_modify (g := fun it : ElementIterator => { it with stopped := true })
      (fun _ => rfl) ((il.iterators.lookup il.retIdx).getD []) il.iters i
    rw [show il.collectStep.iters[i]? = _ from hget] at hit'
    obtain ⟨it, hit, rfl⟩ := Option.map_eq_some_iff.mp hit'
    have hlisted : i ∈ (il.iterators.lookup il.retIdx).getD [] ↔
        h.retentions[i]? = some il.retIdx :=
      (hinv.listed_iff i il.retIdx).trans (and_iff_left (UInt64.le_refl _))
    refine ⟨it, hit, ?_, ?_⟩
    · split <;> rfl
    · split
      next hi => simp [hlisted.mp hi]
      next hi => simp [mt hlisted.mpr hi]
  refine ⟨{ hinv with
    rep := { hinv.rep with }, length_eq := ?_, listed_iff := fun i idx => ?_
    stopped_iff := fun i it' idx hit' hidx => ?_, tracks := fun i it' hit' hrun => ?_
    retIdx_eq := rfl }, hnat⟩
  · rw [LinkedList.collectStep, length_foldl_modify]
    exact hinv.length_eq
  · show i ∈ ((il.iterators.erase il.retIdx).lookup idx).getD [] ↔ _ ∧ il.retIdx + 1 ≤ idx
    rw [hle_iff]
    rcases eq_or_ne idx il.retIdx with rfl | hne
    · simp [AList.lookup_erase]
    · rw [AList.lookup_erase_ne hne, hinv.listed_iff, and_iff_left hne]
  · obtain ⟨it, hit, -, hstopped⟩ := hcollected i it' hit'
    show it'.stopped = true ↔ idx < il.retIdx + 1
    rw [hstopped, hlt_iff, hinv.stopped_iff i it idx hit hidx, hidx, Option.some_inj]
  · obtain ⟨it, hit, hlast, hstopped⟩ := hcollected i it' hit'
    rw [hlast]
    refine hinv.tracks i it hit (Bool.eq_false_iff.mpr fun hold => ?_)
    rw [hstopped.mpr (.inr hold)] at hrun
    cases hrun

/-- The loop of `GarbageCollect`. -/
theorem Inv.collect_iterate (hinv : Inv h il) {n : ℕ} (hmax : il.retIdx.toNat + n < 2 ^ 64) :
    Inv { h with retIdx := (LinkedList.collectStep^[n] il).retIdx } (LinkedList.collectStep^[n] il) ∧
      (LinkedList.collectStep^[n] il).retIdx.toNat = il.retIdx.toNat + n := by
  induction n generalizing h il with
  | zero =>
    rw [Function.iterate_zero_apply, hinv.retIdx_eq]
    exact ⟨hinv, rfl⟩
  | succ n ih =>
    obtain ⟨hinv', hnat⟩ := hinv.collectStep (by omega)
    obtain ⟨hinv'', hnat'⟩ := ih hinv' (by omega)
    rw [Function.iterate_succ_apply]
    exact ⟨hinv'', by omega⟩

/-- `GarbageCollect` keeps the invariant and raises the retention index of the list. -/
theorem Inv.garbageCollect (hinv : Inv h il) (retIdx : RetentionIndex) :
    Inv { h with retIdx := if h.retIdx < retIdx then retIdx else h.retIdx }
      (il.garbageCollect retIdx) := by
  have hmax : il.retIdx.toNat + (retIdx.toNat - il.retIdx.toNat) < 2 ^ 64 := by
    have h₁ := il.retIdx.toNat_lt
    have h₂ := retIdx.toNat_lt
    omega
  obtain ⟨hinv', hnat⟩ := hinv.collect_iterate hmax
  have hretIdx : (if h.retIdx < retIdx then retIdx else h.retIdx) =
      (LinkedList.collectStep^[retIdx.toNat - il.retIdx.toNat] il).retIdx := by
    rw [← UInt64.toNat_inj, hnat, ← hinv.retIdx_eq]
    split
    next hlt =>
      rw [UInt64.lt_iff_toNat_lt] at hlt
      omega
    next hnot =>
      rw [UInt64.lt_iff_toNat_lt] at hnot
      omega
  rw [hretIdx]
  exact hinv'

/-! ### Iterating keeps the invariant -/

variable {i : ℕ} {it : ElementIterator} {rest : List (Item K V)}

/-- An iterator selects the first element that it has not output. -/
theorem Inv.nextElement_eq (hinv : Inv h il) (hit : il.iters[i]? = some it)
    (hrun : it.stopped = false) : il.nextElement it = ((h.unseen i).map Item.ref).head? := by
  rw [nextElement, hinv.rep.first_eq, History.map_ref_unseen]
  exact (hinv.tracks i it hit hrun).reads.succ_eq hinv.rep.chain

/-- **An iterator outputs an element.** -/
theorem Inv.output (hinv : Inv h il) (hit : il.iters[i]? = some it) (hrun : it.stopped = false)
    (hunseen : h.unseen i = x :: rest) :
    il.item x.ref = some x ∧ Inv (h.output i [x]) (il.setLastOutput i (some x.ref)) := by
  have hx : x ∈ h.appended :=
    List.mem_of_mem_filter (List.mem_of_mem_filter (hunseen ▸ List.mem_cons_self))
  have hrefs : h.live.filter (· ∉ h.seen i) = x.ref :: rest.map Item.ref := by
    rw [← History.map_ref_unseen, hunseen, List.map_cons]
  have htracks := (hinv.tracks i it hit hrun).output hinv.rep.increasing hrefs
  have hseen : (h.output i [x]).seen i = h.seen i ++ [x.ref] := History.seen_output_self [x]
  -- the other iterators are not changed
  have hold : ∀ (j : ℕ) (jt' : ElementIterator),
      (il.setLastOutput i (some x.ref)).iters[j]? = some jt' →
        ∃ jt, il.iters[j]? = some jt ∧
          jt' = if i = j then { jt with lastOutput := some x.ref } else jt := by
    intro j jt' hjt'
    rw [setLastOutput, List.getElem?_modify] at hjt'
    obtain ⟨jt, hjt, rfl⟩ := Option.map_eq_some_iff.mp hjt'
    exact ⟨jt, hjt, rfl⟩
  refine ⟨hinv.stored x hx, { hinv with
    rep := { hinv.rep with }, outputs_sub := fun j => ?_, outputs_new := fun j hj => ?_
    length_eq := ?_, stopped_iff := fun j jt' idx hjt' hidx => ?_
    tracks := fun j jt' hjt' hrun' => ?_ }⟩
  · rcases eq_or_ne j i with rfl | hne
    · simp only [History.output, Function.update_self]
      exact List.append_subset.mpr ⟨hinv.outputs_sub j, List.cons_subset.mpr ⟨hx, List.nil_subset _⟩⟩
    · simp only [History.output, Function.update_of_ne hne]
      exact hinv.outputs_sub j
  · have hne : j ≠ i := by
      rintro rfl
      have hlt := (List.getElem?_eq_some_iff.mp hit).1
      rw [hinv.length_eq] at hlt
      exact absurd hlt (Nat.not_lt.mpr hj)
    simp only [History.output, Function.update_of_ne hne]
    exact hinv.outputs_new j hj
  · rw [setLastOutput, List.length_modify]
    exact hinv.length_eq
  · obtain ⟨jt, hjt, rfl⟩ := hold j jt' hjt'
    have hstopped := hinv.stopped_iff j jt idx hjt hidx
    split <;> exact hstopped
  · obtain ⟨jt, hjt, rfl⟩ := hold j jt' hjt'
    rcases eq_or_ne i j with rfl | hne
    · rw [if_pos rfl, hseen]
      exact htracks
    · rw [if_neg hne] at hrun' ⊢
      rw [History.seen_output_of_ne hne.symm]
      exact hinv.tracks j jt hjt hrun'

omit [DecidableEq K] in
theorem getElem?_setLastOutput (hit : il.iters[i]? = some it) (e : Option ℕ) :
    (il.setLastOutput i e).iters[i]? = some { it with lastOutput := e } := by
  rw [setLastOutput, List.getElem?_modify, hit]
  simp

/-- `Next` of an iterator that has not been stopped outputs the first element that is left, or reports
that no element is left. -/
theorem Inv.next (hinv : Inv h il) (hit : il.iters[i]? = some it) (hrun : it.stopped = false) :
    ∃ il', il.next i = some (il', (h.unseen i).head?) ∧
      Inv (h.output i (h.unseen i).head?.toList) il' := by
  have hnext := hinv.nextElement_eq hit hrun
  cases hunseen : h.unseen i with
  | nil =>
    rw [hunseen] at hnext
    refine ⟨il, ?_, ?_⟩
    · rw [LinkedList.next, hit]
      simp [hrun, hnext]
    · rw [List.head?_nil, Option.toList_none, History.output_nil]
      exact hinv
  | cons x rest =>
    obtain ⟨hitem, hinv'⟩ := hinv.output hit hrun hunseen
    rw [hunseen] at hnext
    refine ⟨il.setLastOutput i (some x.ref), ?_, hinv'⟩
    rw [LinkedList.next, hit]
    simp [hrun, hnext, hitem]

/-- The loop of `NextWhile`: it outputs the items that are left, up to one that is rejected. -/
theorem Inv.nextWhileFrom (predicate : ItemPredicate K V) {n : ℕ} (items : List (Item K V))
    (hinv : Inv h il) (hit : il.iters[i]? = some it) (hrun : it.stopped = false)
    (hunseen : h.unseen i = rest) (hn : rest.length ≤ n) :
    ∃ il' xs, LinkedList.nextWhileFrom predicate i n il (rest.map Item.ref).head? items =
        some (il', items ++ xs) ∧ Inv (h.output i xs) il' ∧
      xs.map Item.pair =
        OrderedMap.takeWhile predicate (items.map Item.pair) (rest.map Item.pair) ∧
      ∃ left, rest = xs ++ left ∧ ∀ x ∈ left.head?,
        predicate ((items ++ xs).map Item.pair) x.key x.val = false := by
  induction rest generalizing n h il it items with
  | nil =>
    refine ⟨il, [], ?_, ?_, rfl, [], rfl, nofun⟩
    · rw [List.map_nil, List.head?_nil, List.append_nil]
      cases n <;> rfl
    · rw [History.output_nil]
      exact hinv
  | cons x rest ih =>
    obtain ⟨n, rfl⟩ : ∃ m, n = m + 1 := Nat.exists_eq_succ_of_ne_zero (by simp at hn; omega)
    obtain ⟨hitem, hinv₁⟩ := hinv.output hit hrun hunseen
    have hunseen₁ : (h.output i [x]).unseen i = rest := History.unseen_output hunseen hinv.rep.nodup
    have hit₁ := getElem?_setLastOutput hit (some x.ref)
    have hnext : (il.setLastOutput i (some x.ref)).nextOf x.ref = (rest.map Item.ref).head? := by
      rw [← hunseen₁, ← hinv₁.nextElement_eq hit₁ hrun]
      rfl
    rw [List.map_cons, List.map_cons, List.head?_cons, LinkedList.nextWhileFrom, hitem,
      OrderedMap.takeWhile]
    by_cases haccepted : predicate (items.map Item.pair) x.key x.val = true
    · obtain ⟨il', xs, hloop, hinv', hpairs, left, hleft, hrejected⟩ :=
        ih (items ++ [x]) hinv₁ hit₁ hrun hunseen₁ (Nat.le_of_succ_le_succ hn)
      refine ⟨il', [x] ++ xs, ?_, ?_, ?_, left, ?_, ?_⟩
      · rw [← List.append_assoc, ← hloop, ← hnext]
        exact if_pos haccepted
      · rw [← History.output_output]
        exact hinv'
      · rw [List.map_append, hpairs, List.map_append]
        exact (if_pos haccepted).symm
      · rw [hleft]
        rfl
      · rw [← List.append_assoc]
        exact hrejected
    · refine ⟨il, [], ?_, ?_, (if_neg haccepted).symm, x :: rest, rfl, ?_⟩
      · rw [List.append_nil]
        exact if_neg haccepted
      · rw [History.output_nil]
        exact hinv
      · rintro y ⟨⟩
        rw [List.append_nil]
        exact Bool.eq_false_iff.mpr haccepted

/-- `NextWhile` of an iterator that has not been stopped. -/
theorem Inv.nextWhile (hinv : Inv h il) (hit : il.iters[i]? = some it) (hrun : it.stopped = false)
    (predicate : ItemPredicate K V) :
    ∃ il' xs, il.nextWhile i predicate = some (il', xs, true) ∧ Inv (h.output i xs) il' ∧
      xs.map Item.pair = OrderedMap.takeWhile predicate [] ((h.unseen i).map Item.pair) ∧
      ∃ left, h.unseen i = xs ++ left ∧ ∀ x ∈ left.head?,
        predicate (xs.map Item.pair) x.key x.val = false := by
  have hlen : (h.unseen i).length ≤ il.heap.length := by
    rw [← List.length_map (f := Item.ref), History.map_ref_unseen]
    exact (List.length_filter_le _ _).trans hinv.rep.length_le
  obtain ⟨il', xs, hloop, hinv', hleft⟩ :=
    hinv.nextWhileFrom predicate [] hit hrun rfl hlen
  refine ⟨il', xs, ?_, hinv', hleft⟩
  rw [List.nil_append, ← hinv.nextElement_eq hit hrun] at hloop
  rw [LinkedList.nextWhile, hit]
  simp [hrun, hloop]

/-- A stopped iterator outputs nothing. -/
theorem call_stopped (hit : il.iters[i]? = some it) (hstopped : it.stopped = true) {c : Call K V}
    (hc : c.iterates = some i) : il.call c = some (il, ⟨[], false⟩) := by
  cases c with
  | next j | nextWhile j =>
    obtain rfl : j = i := Option.some.inj hc
    simp [call, LinkedList.next, LinkedList.nextWhile, hit, hstopped]
  | append | remove | removeSelected | iterator | garbageCollect => cases hc

/-- **A call on a running iterator** outputs the next elements of those that it has not output. -/
theorem Inv.call_running (hinv : Inv h il) (hit : il.iters[i]? = some it)
    (hrun : it.stopped = false) {c : Call K V} (hc : c.iterates = some i) :
    ∃ il' r, il.call c = some (il', r) ∧ Inv (h.record r.items c) il' ∧ r.items <+: h.unseen i := by
  cases c with
  | next j =>
    obtain rfl : j = i := Option.some.inj hc
    obtain ⟨il', hnext, hinv'⟩ := hinv.next hit hrun
    refine ⟨il', ⟨_, (h.unseen j).head?.isSome⟩, by rw [call, hnext]; rfl, hinv', ?_⟩
    cases h.unseen j with
    | nil => exact List.nil_prefix
    | cons x rest => exact ⟨rest, rfl⟩
  | nextWhile j predicate =>
    obtain rfl : j = i := Option.some.inj hc
    obtain ⟨il', xs, hnext, hinv', -, left, hleft, -⟩ := hinv.nextWhile hit hrun predicate
    exact ⟨il', ⟨xs, true⟩, by rw [call, hnext]; rfl, hinv', left, hleft.symm⟩
  | append | remove | removeSelected | iterator | garbageCollect => cases hc

/-- **Every call returns and keeps the invariant.** -/
theorem Inv.call (hinv : Inv h il) {c : Call K V}
    (hknown : ∀ i ∈ c.iterates, i < h.retentions.length) :
    ∃ il' r, il.call c = some (il', r) ∧ Inv (h.record r.items c) il' := by
  -- a call on an iterator, stopped or not
  have hiterate : ∀ i, c.iterates = some i → h.record [] c = h →
      ∃ il' r, il.call c = some (il', r) ∧ Inv (h.record r.items c) il' := by
    intro i hc hnothing
    have hi : i < il.iters.length := hinv.length_eq ▸ hknown i hc
    have hit := List.getElem?_eq_getElem hi
    cases hstopped : il.iters[i].stopped with
    | true =>
      refine ⟨il, ⟨[], false⟩, call_stopped hit hstopped hc, ?_⟩
      rw [hnothing]
      exact hinv
    | false =>
      obtain ⟨il', r, hcall, hinv', -⟩ := hinv.call_running hit hstopped hc
      exact ⟨il', r, hcall, hinv'⟩
  cases c with
  | append items =>
    obtain ⟨il', xs, happend, hinv', -⟩ := hinv.append items
    exact ⟨il', ⟨xs, true⟩, by rw [LinkedList.call, happend]; rfl, hinv'⟩
  | remove keys =>
    obtain ⟨il', xs, hremove, hinv', -⟩ := hinv.remove keys
    exact ⟨il', ⟨xs, true⟩, by rw [LinkedList.call, hremove]; rfl, hinv'⟩
  | removeSelected predicate =>
    obtain ⟨il', xs, hremove, hinv', -⟩ := hinv.removeSelected predicate
    exact ⟨il', ⟨xs, true⟩, by rw [LinkedList.call, hremove]; rfl, hinv'⟩
  | iterator retIdx => exact ⟨_, _, rfl, hinv.iterator retIdx⟩
  | garbageCollect retIdx => exact ⟨_, _, rfl, hinv.garbageCollect retIdx⟩
  | next i => exact hiterate i rfl History.output_nil
  | nextWhile i predicate => exact hiterate i rfl History.output_nil

/-- A call on an iterator returns only if the iterator exists. -/
theorem lt_of_call {c : Call K V} {il' : LinkedList K V} {r : Reply K V}
    (hcall : il.call c = some (il', r)) : ∀ i ∈ c.iterates, i < il.iters.length := by
  cases c with
  | next j | nextWhile j =>
    rintro i ⟨⟩
    obtain ⟨_, hnext, -⟩ := Option.map_eq_some_iff.mp hcall
    obtain ⟨it, hit, -⟩ := Option.bind_eq_some_iff.mp hnext
    exact (List.getElem?_eq_some_iff.mp hit).1
  | append | remove | removeSelected | iterator | garbageCollect => nofun

end Inv

/-! ### Runs -/

/-- A sequence of calls on a new list, with the replies, and the list after it. -/
inductive Run [DecidableEq K] : List (Call K V × Reply K V) → LinkedList K V → Prop
  | new : Run [] LinkedList.new
  | step {t : List (Call K V × Reply K V)} {il il' : LinkedList K V} {c : Call K V} {r : Reply K V}
      (hrun : Run t il) (hcall : il.call c = some (il', r)) : Run (t ++ [(c, r)]) il'

/-- The history that the replies of a run tell. -/
def history (t : List (Call K V × Reply K V)) : History K V :=
  t.foldl (fun h cr => h.record cr.2.items cr.1) .empty

/-- An iterator has been garbage-collected: there was a call of `GarbageCollect` with a higher retention
index than that of the iterator. -/
def Collected (t : List (Call K V × Reply K V)) (i : ℕ) : Prop :=
  ∃ idx retIdx, (history t).retentions[i]? = some idx ∧
    .garbageCollect retIdx ∈ t.map Prod.fst ∧ idx < retIdx

/-- What an iterator that has not been garbage-collected does, after a run.

The elements it has output are in the order of the list (`in_order`; an element has a higher reference
than those before it), and those of them that are still in the list are its first elements
(`first_part`). The next call outputs the next elements of the list, none of which it has output
before (`output`) and none of which was removed (`present`). When `Next` reports that nothing is left,
all elements of the list have been output (`exhausted`); `NextWhile` ends at the end of the list or
before an element that the predicate rejects (`rejected`). -/
structure SeesOnce [DecidableEq K] (t : List (Call K V × Reply K V)) (il : LinkedList K V) (i : ℕ) :
    Prop where
  in_order : ((history t).seen i).Pairwise (· < ·)
  first_part : ((history t).seen i).filter (· ∈ il.elements) <+: il.elements
  output : ∀ c il' r, c.iterates = some i → il.call c = some (il', r) →
    r.items.map Item.ref <+: il.elements.filter (· ∉ (history t).seen i)
  present : ∀ c il' r, c.iterates = some i → il.call c = some (il', r) →
    ∀ x ∈ r.items, x ∈ (history t).appended ∧ x ∉ (history t).removed
  exhausted : ∀ il' r, il.call (.next i) = some (il', r) → r.ok = false →
    il.elements ⊆ (history t).seen i
  rejected : ∀ predicate il' r, il.call (.nextWhile i predicate) = some (il', r) →
    ∃ left, il.elements.filter (· ∉ (history t).seen i) = r.items.map Item.ref ++ left ∧
      ∀ e ∈ left.head?, ∃ x ∈ il.item e,
        predicate (r.items.map fun y => (y.key, y.val)) x.key x.val = false

section Run

variable {t : List (Call K V × Reply K V)} {il : LinkedList K V} {c : Call K V} {r : Reply K V}
  {i : ℕ}

theorem history_concat : history (t ++ [(c, r)]) = (history t).record r.items c := by
  rw [history, List.foldl_append]
  rfl

theorem lt_retIdx_iff (idx : RetentionIndex) : idx < (history t).retIdx ↔
    ∃ retIdx, .garbageCollect retIdx ∈ t.map Prod.fst ∧ idx < retIdx := by
  induction t using List.reverseRecOn with
  | nil => simp [history, History.empty]
  | append_singleton t cr ih =>
    obtain ⟨c, r⟩ := cr
    rw [history_concat]
    cases c with
    | garbageCollect retIdx =>
      have hmax : idx < (if (history t).retIdx < retIdx then retIdx else (history t).retIdx) ↔
          idx < (history t).retIdx ∨ idx < retIdx := by
        split
        next hlt =>
          exact ⟨.inr, fun h => h.elim (fun h => UInt64.lt_trans h hlt) id⟩
        next hnot =>
          exact ⟨.inl, fun h => h.elim id fun h =>
            UInt64.lt_of_lt_of_le h (UInt64.not_lt.mp hnot)⟩
      show idx < (if (history t).retIdx < retIdx then retIdx else (history t).retIdx) ↔ _
      rw [hmax, ih]
      simp [or_and_right, exists_or]
    | append | remove | removeSelected | iterator | next | nextWhile =>
      refine ih.trans ?_
      simp

theorem collected_iff : Collected t i ↔
    ∃ idx, (history t).retentions[i]? = some idx ∧ idx < (history t).retIdx := by
  constructor
  · rintro ⟨idx, retIdx, hidx, hcall, hlt⟩
    exact ⟨idx, hidx, (lt_retIdx_iff idx).mpr ⟨retIdx, hcall, hlt⟩⟩
  · rintro ⟨idx, hidx, hlt⟩
    obtain ⟨retIdx, hcall, hlt⟩ := (lt_retIdx_iff idx).mp hlt
    exact ⟨idx, retIdx, hidx, hcall, hlt⟩

variable [DecidableEq K]

/-- **The invariant holds in every run.** -/
theorem Run.inv (h : Run t il) : Inv (history t) il := by
  induction h with
  | new => exact inv_new
  | step _ hcall ih =>
    obtain ⟨il', r, hcall', hinv⟩ := ih.call (ih.length_eq ▸ lt_of_call hcall)
    rw [hcall] at hcall'
    cases hcall'
    rw [history_concat]
    exact hinv

/-- The iterators that have been garbage-collected are those that have been stopped. -/
theorem Inv.stopped_iff_collected (hinv : Inv (history t) il) {it : ElementIterator}
    (hit : il.iters[i]? = some it) : it.stopped = true ↔ Collected t i := by
  have hi : i < (history t).retentions.length :=
    hinv.length_eq ▸ (List.getElem?_eq_some_iff.mp hit).1
  have hidx := List.getElem?_eq_getElem hi
  rw [hinv.stopped_iff i it _ hit hidx, collected_iff, hinv.retIdx_eq, hidx]
  simp

/-- A running iterator sees every element once. -/
theorem Inv.seesOnce (hinv : Inv (history t) il) {it : ElementIterator}
    (hit : il.iters[i]? = some it) (hrun : it.stopped = false) : SeesOnce t il i := by
  have htracks := hinv.tracks i it hit hrun
  have helements := hinv.rep.elements_eq
  have hunseen : il.elements.filter (· ∉ (history t).seen i) =
      ((history t).unseen i).map Item.ref := by
    rw [helements, History.map_ref_unseen]
  have houtput : ∀ c il' r, c.iterates = some i → il.call c = some (il', r) →
      r.items <+: (history t).unseen i := by
    intro c il' r hc hcall
    obtain ⟨il₁, r₁, hcall₁, -, hpre⟩ := hinv.call_running hit hrun hc
    rw [hcall] at hcall₁
    cases hcall₁
    exact hpre
  refine ⟨htracks.increasing, ?_, ?_, ?_, ?_, ?_⟩
  · rw [helements]
    exact ⟨_, htracks.reads.refs_eq.symm⟩
  · intro c il' r hc hcall
    rw [hunseen]
    exact (houtput c il' r hc hcall).map Item.ref
  · intro c il' r hc hcall x hx
    have hlive := List.mem_of_mem_filter ((houtput c il' r hc hcall).subset hx)
    obtain ⟨happended, hnot⟩ := List.mem_filter.mp hlive
    exact ⟨happended, fun hremoved => of_decide_eq_true hnot (List.mem_map_of_mem hremoved)⟩
  · intro il' r hcall hok
    obtain ⟨il₁, hnext, -⟩ := hinv.next hit hrun
    rw [LinkedList.call, hnext] at hcall
    cases hcall
    have hnone := Option.isNone_iff_eq_none.mp (Option.isSome_eq_false_iff.mp hok)
    rw [List.head?_eq_none_iff.mp hnone] at hunseen
    exact Tracks.subset_of_nil hunseen
  · intro predicate il' r hcall
    obtain ⟨il₁, xs, hnext, -, -, left, hleft, hrejected⟩ := hinv.nextWhile hit hrun predicate
    rw [LinkedList.call, hnext] at hcall
    cases hcall
    refine ⟨left.map Item.ref, by rw [hunseen, hleft, List.map_append], fun e he => ?_⟩
    rw [List.head?_map] at he
    obtain ⟨x, hx, rfl⟩ := Option.map_eq_some_iff.mp he
    have hmem : x ∈ (history t).unseen i :=
      hleft ▸ List.mem_append_right _ (List.mem_of_mem_head? hx)
    exact ⟨x, hinv.stored_of_live (List.mem_of_mem_filter hmem), hrejected x hx⟩

/-- **Iterators see every element exactly once while the list changes.** After every run of calls, the
list that is found by following the pointers consists of the elements that were appended and not
removed, in the order in which they were appended; every call returns; an iterator that has not been
garbage-collected sees every element once; and one that has been outputs nothing more. -/
theorem run_iterators_see_once (hrun : Run t il) :
    il.elements = (history t).live ∧ il.elements.Pairwise (· < ·) ∧
    (∀ c : Call K V, (∀ i ∈ c.iterates, i < (history t).retentions.length) →
      ∃ il' r, il.call c = some (il', r)) ∧
    ∀ i < (history t).retentions.length,
      (¬Collected t i → SeesOnce t il i) ∧
      (Collected t i → ∀ c : Call K V, c.iterates = some i →
        il.call c = some (il, ⟨[], false⟩)) := by
  have hinv := hrun.inv
  refine ⟨hinv.rep.elements_eq, ?_, fun c hknown => ?_, fun i hi => ⟨fun hnot => ?_, fun hcol => ?_⟩⟩
  · rw [hinv.rep.elements_eq]
    exact hinv.rep.increasing
  · obtain ⟨il', r, hcall, -⟩ := hinv.call hknown
    exact ⟨il', r, hcall⟩
  · have hit := List.getElem?_eq_getElem (hinv.length_eq ▸ hi)
    exact hinv.seesOnce hit (Bool.eq_false_iff.mpr (mt (hinv.stopped_iff_collected hit).mp hnot))
  · have hit := List.getElem?_eq_getElem (hinv.length_eq ▸ hi)
    exact fun c hc => call_stopped hit ((hinv.stopped_iff_collected hit).mpr hcol) hc

end Run

/-- A run in which the element that an iterator has output last is removed, and its key appended again. -/
def reappended : List (Call ℕ ℕ × Reply ℕ ℕ) :=
  [(.append [(1, 10), (2, 20)], ⟨[⟨0, 1, 10⟩, ⟨1, 2, 20⟩], true⟩), (.iterator 5, ⟨[], true⟩),
    (.next 0, ⟨[⟨0, 1, 10⟩], true⟩), (.remove [1], ⟨[⟨0, 1, 10⟩], true⟩),
    (.append [(1, 11)], ⟨[⟨2, 1, 11⟩], true⟩)]

/-- The list after that run. -/
def reappendedList : LinkedList ℕ ℕ where
  heap := [⟨none, some 1, 1, 10⟩, ⟨none, some 2, 2, 20⟩, ⟨some 1, none, 1, 11⟩]
  iters := [⟨none, false⟩]
  index := (((AList.insert 2 1 (AList.insert 1 0 ∅)).erase 1).insert 1 2)
  first := some 1
  last := some 2
  iterators := AList.insert 5 [0] ∅
  retIdx := 0

theorem run_reappended : Run reappended reappendedList := by
  have h₁ := Run.step Run.new (show call (new : LinkedList ℕ ℕ) (.append [(1, 10), (2, 20)]) = some
    (⟨[⟨none, some 1, 1, 10⟩, ⟨some 0, none, 2, 20⟩], [], AList.insert 2 1 (AList.insert 1 0 ∅),
      some 0, some 1, ∅, 0⟩, ⟨[⟨0, 1, 10⟩, ⟨1, 2, 20⟩], true⟩) from rfl)
  have h₂ := h₁.step (c := .iterator 5) rfl
  have h₃ := h₂.step (c := .next 0) (r := ⟨[⟨0, 1, 10⟩], true⟩) rfl
  have h₄ := h₃.step (c := .remove [1]) (r := ⟨[⟨0, 1, 10⟩], true⟩) rfl
  exact h₄.step (c := .append [(1, 11)]) (r := ⟨[⟨2, 1, 11⟩], true⟩) rfl

theorem not_collected_reappended : ¬Collected reappended 0 := by
  rw [collected_iff]
  rintro ⟨idx, -, hlt⟩
  exact Nat.not_lt_zero _ (UInt64.lt_iff_toNat_lt.mp hlt)

theorem run_iterators_see_once_reappended :
    reappendedList.elements = [1, 2] ∧ (history reappended).seen 0 = [0] ∧
      SeesOnce reappended reappendedList 0 :=
  ⟨rfl, rfl, ((run_iterators_see_once run_reappended).2.2.2 0 (by decide)).1
    not_collected_reappended⟩

/-! ### The list as an ordered map -/

/-- The keys and values found by following the pointers. -/
def entries (il : LinkedList K V) : List (K × V) := (il.elements.filterMap il.item).map Item.pair

/-- The pointers and the index agree: the elements found by following `next` are those in the index, once
each, up to the last one; `prev` is the inverse of `next`; and `first` and `last` are `nil` if and only if
the index is empty. -/
structure Linked [DecidableEq K] (il : LinkedList K V) : Prop where
  nodup : il.elements.Nodup
  indexed : ∀ e, e ∈ il.elements ↔ ∃ key, il.index.lookup key = some e
  getLast?_eq : il.elements.getLast? = il.last
  nextOf_last : ∀ e ∈ il.last, il.nextOf e = none
  inverse : ∀ e ∈ il.elements, ∀ e' ∈ il.elements, il.nextOf e = some e' ↔ il.prevOf e' = some e
  first_eq_none : il.first = none ↔ il.index.keys = []
  last_eq_none : il.last = none ↔ il.index.keys = []

section Refinement

variable [DecidableEq K] {h : History K V} {il : LinkedList K V} {t : List (Call K V × Reply K V)}

theorem Inv.entries_eq (hinv : Inv h il) : il.entries = h.entries := by
  have hitems : h.liveItems.filterMap (il.item ∘ Item.ref) = h.liveItems :=
    (List.filterMap_congr fun _ hx => hinv.stored_of_live hx).trans List.filterMap_some
  rw [entries, hinv.rep.elements_eq, History.live_eq, List.filterMap_map, hitems, History.entries]

theorem Inv.linked (hinv : Inv h il) : Linked il := by
  have hrep := hinv.rep
  have hempty : il.index.keys = [] ↔ h.live = [] := by
    have hkeys : ∀ key, key ∈ il.index.keys ↔ key ∈ h.entries.map Prod.fst :=
      fun key => hinv.mem_index_iff
    rw [List.eq_nil_iff_forall_not_mem, History.live_eq, List.map_eq_nil_iff,
      ← List.map_eq_nil_iff (f := Item.pair), ← List.map_eq_nil_iff (f := Prod.fst),
      List.eq_nil_iff_forall_not_mem]
    exact forall_congr' fun key => not_congr (hkeys key)
  refine ⟨?_, fun e => ?_, ?_, fun e he => ?_, ?_, ?_, ?_⟩
  · rw [hrep.elements_eq]
    exact hrep.nodup
  · simp only [hrep.elements_eq, hrep.index_iff, exists_and_left]
    refine (and_iff_left_of_imp fun he => ?_).symm
    obtain ⟨x, hx⟩ := hrep.exists_item he
    exact ⟨x.key, x, hx, rfl⟩
  · rw [hrep.elements_eq, hrep.last_eq]
  · rw [hrep.last_eq] at he
    obtain ⟨front, hfront⟩ := List.getLast?_eq_some_iff.mp he
    exact (hrep.chain front e [] hfront).2
  · rw [hrep.elements_eq]
    exact fun e he e' he' => hrep.chain.next_eq_some_iff he he'
  · rw [hrep.first_eq, List.head?_eq_none_iff, hempty]
  · rw [hrep.last_eq, List.getLast?_eq_none_iff, hempty]

/-- **An indexed list is an insertion-ordered map.** After every run of calls, the pointers and the index
agree, no key is there twice, and what `Append`, `Remove` and `RemoveSelected` do to the list and what
they return is what the operations of an ordered map do and return. -/
theorem run_refines_orderedMap (hrun : Run t il) :
    Linked il ∧ (il.entries.map Prod.fst).Nodup ∧ (t = [] → il.entries = []) ∧
    (∀ items, ∃ il' xs, il.append items = some (il', xs) ∧
      OrderedMap.append il.entries items = (il'.entries, xs.map Item.pair)) ∧
    (∀ keys, ∃ il' xs, il.remove keys = some (il', xs) ∧
      OrderedMap.remove il.entries keys = (il'.entries, xs.map Item.pair)) ∧
    ∀ predicate, ∃ il' xs, il.removeSelected predicate = some (il', xs) ∧
      OrderedMap.removeSelected predicate [] il.entries = (il'.entries, xs.map Item.pair) := by
  have hinv := hrun.inv
  rw [hinv.entries_eq]
  refine ⟨hinv.linked, hinv.keys_nodup, ?_, fun items => ?_, fun keys => ?_, fun predicate => ?_⟩
  · rintro rfl
    rfl
  · obtain ⟨il', xs, happend, hinv', hspec⟩ := hinv.append items
    exact ⟨il', xs, happend, hinv'.entries_eq ▸ hspec⟩
  · obtain ⟨il', xs, hremove, hinv', hspec⟩ := hinv.remove keys
    exact ⟨il', xs, hremove, hinv'.entries_eq ▸ hspec⟩
  · obtain ⟨il', xs, hremove, hinv', hspec⟩ := hinv.removeSelected predicate
    exact ⟨il', xs, hremove, hinv'.entries_eq ▸ hspec⟩

end Refinement

theorem run_refines_orderedMap_reappended :
    reappendedList.entries = [(2, 20), (1, 11)] ∧ Linked reappendedList ∧
      ∃ il' xs, reappendedList.remove [1, 1] = some (il', xs) ∧
        OrderedMap.remove reappendedList.entries [1, 1] = (il'.entries, xs.map Item.pair) :=
  ⟨rfl, (run_refines_orderedMap run_reappended).1,
    (run_refines_orderedMap run_reappended).2.2.2.2.1 [1, 1]⟩

end Mir.LinkedList
