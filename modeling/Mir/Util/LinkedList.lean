import Mir.Events.Types
import Mir.Lib.LinkedChain

/-!
# Indexed lists, with their pointers

`indexedlist.IndexedList` as the code stores it: elements that point to their neighbours, the index
that finds an element by its key, pointers to the first and the last element, and the iterators that
have not been garbage-collected, by retention index. The elements are allocated in a heap that only
grows, and a pointer is a position in it; iterators are referred to in the same way.

A call returns `none` if it does not return: because it dereferences a `nil` pointer, or because a loop
over the elements does not come to an end within as many iterations as there are elements in the heap.

`Rep` is the representation invariant. It relates the pointers to the list of the elements in their
order, which is the order in which they were allocated.
-/

namespace Mir

open LinkedChain

/-- `element`. -/
structure Element (K V : Type) where
  prev : Option ℕ
  next : Option ℕ
  key : K
  val : V
  deriving DecidableEq

/-- `indexedlist.Iterator`, without the pointer to its list. -/
structure ElementIterator where
  lastOutput : Option ℕ
  stopped : Bool
  deriving DecidableEq

/-- A key and a value that a call returns, with the element that holds them. -/
structure Item (K V : Type) where
  ref : ℕ
  key : K
  val : V
  deriving DecidableEq

/-- The key and the value of an item. -/
def Item.pair {K V : Type} (x : Item K V) : K × V := (x.key, x.val)

/-- A function given as a predicate. It may keep a state: its answer may depend on the keys and values
that the same call has asked it about before. -/
abbrev ItemPredicate (K V : Type) := List (K × V) → K → V → Bool

/-- `indexedlist.IndexedList`, with all elements and all iterators allocated so far. -/
structure LinkedList (K V : Type) where
  heap : List (Element K V)
  iters : List ElementIterator
  index : GoMap K ℕ
  first : Option ℕ
  last : Option ℕ
  iterators : GoMap RetentionIndex (List ℕ)
  retIdx : RetentionIndex

namespace LinkedList

variable {K V : Type}

/-! ### Elements -/

/-- `New`. -/
def new : LinkedList K V := ⟨[], [], ∅, none, none, ∅, 0⟩

/-- The key and the value of an element. -/
def item (il : LinkedList K V) (e : ℕ) : Option (Item K V) :=
  il.heap[e]?.map fun x => ⟨e, x.key, x.val⟩

/-- The pointer `e.prev`. -/
def prevOf (il : LinkedList K V) (e : ℕ) : Option ℕ := il.heap[e]?.bind Element.prev

/-- The pointer `e.next`. -/
def nextOf (il : LinkedList K V) (e : ℕ) : Option ℕ := il.heap[e]?.bind Element.next

/-- The assignment `e.prev = p`. -/
def setPrev (il : LinkedList K V) (e : ℕ) (p : Option ℕ) : LinkedList K V :=
  { il with heap := il.heap.modify e fun x => { x with prev := p } }

/-- The assignment `e.next = p`. -/
def setNext (il : LinkedList K V) (e : ℕ) (p : Option ℕ) : LinkedList K V :=
  { il with heap := il.heap.modify e fun x => { x with next := p } }

/-- A new element, which is not in the list yet. -/
def alloc (il : LinkedList K V) (key : K) (val : V) : LinkedList K V × ℕ :=
  ({ il with heap := il.heap ++ [⟨none, none, key, val⟩] }, il.heap.length)

/-- The elements found by following `next`. -/
def follow (il : LinkedList K V) : ℕ → Option ℕ → List ℕ
  | 0, _ => []
  | _, none => []
  | n + 1, some e => e :: il.follow n (il.nextOf e)

/-- The elements in the list, in their order. -/
def elements (il : LinkedList K V) : List ℕ := il.follow il.heap.length il.first

/-! ### Appending -/

section Append

variable [DecidableEq K]

/-- The assignments of `appendElement` that link an element to the last one. -/
def linkLast (il : LinkedList K V) (e : ℕ) : Option (LinkedList K V) :=
  match il.first with
  | none => some { il with first := some e }
  | some _ => il.last.map fun last => (il.setNext last (some e)).setPrev e (some last)

/-- `appendElement`. -/
def appendElement (il : LinkedList K V) (e : ℕ) : Option (LinkedList K V × Bool) := do
  let x ← il.item e
  if x.key ∈ il.index then return (il, false)
  else
    let il ← { il with index := il.index.insert x.key e }.linkLast e
    return ({ il with last := some e }, true)

/-- One iteration of the loop of `Append`. -/
def appendStep (acc : LinkedList K V × List (Item K V)) (kv : K × V) :
    Option (LinkedList K V × List (Item K V)) := do
  let (il, e) := acc.1.alloc kv.1 kv.2
  let (il, ok) ← il.appendElement e
  return (il, if ok then acc.2 ++ [⟨e, kv.1, kv.2⟩] else acc.2)

/-- `Append`, with the items that were appended. The keys and values come in pairs: with slices of
different lengths, the function panics before it changes anything. -/
def append (il : LinkedList K V) (items : List (K × V)) :
    Option (LinkedList K V × List (Item K V)) :=
  items.foldlM appendStep (il, [])

end Append

/-! ### Removing -/

/-- The conditional of `updateIterators` for one iterator. -/
def updateIterator (e : ℕ) (prev : Option ℕ) (it : ElementIterator) : ElementIterator :=
  if it.lastOutput = some e then { it with lastOutput := prev } else it

/-- `updateIterators`. -/
def updateIterators (il : LinkedList K V) (e : ℕ) : LinkedList K V :=
  { il with
    iters := il.iterators.pairs.foldl (fun iters group =>
      group.2.foldl (fun iters i => iters.modify i (updateIterator e (il.prevOf e))) iters)
        il.iters }

/-- The first conditional of `removeElement`: the successor gets a new predecessor. -/
def unlinkNext (il : LinkedList K V) (e : ℕ) : LinkedList K V :=
  match il.nextOf e with
  | some n => il.setPrev n (il.prevOf e)
  | none => { il with last := il.prevOf e }

/-- The second conditional of `removeElement`: the predecessor gets a new successor. -/
def unlinkPrev (il : LinkedList K V) (e : ℕ) : LinkedList K V :=
  match il.prevOf e with
  | some p => il.setNext p (il.nextOf e)
  | none => { il with first := il.nextOf e }

section Remove

variable [DecidableEq K]

/-- `removeElement`. -/
def removeElement (il : LinkedList K V) (e : ℕ) : Option (LinkedList K V) := do
  let x ← il.item e
  let il := { il with index := il.index.erase x.key }
  return ((il.updateIterators e).unlinkNext e).unlinkPrev e

/-- One iteration of the loop of `Remove`. -/
def removeStep (acc : LinkedList K V × List (Item K V)) (key : K) :
    Option (LinkedList K V × List (Item K V)) :=
  match acc.1.index.lookup key with
  | none => some acc
  | some e => do
    let il ← acc.1.removeElement e
    let x ← il.item e
    return (il, acc.2 ++ [x])

/-- `Remove`, with the items that were removed. -/
def remove (il : LinkedList K V) (keys : List K) : Option (LinkedList K V × List (Item K V)) :=
  keys.foldlM removeStep (il, [])

/-- The loop of `RemoveSelected`, from an element on. -/
def removeSelectedFrom (predicate : ItemPredicate K V) :
    ℕ → LinkedList K V → Option ℕ → List (K × V) → List (Item K V) →
      Option (LinkedList K V × List (Item K V))
  | _, il, none, _, removed => some (il, removed)
  | 0, _, some _, _, _ => none
  | n + 1, il, some e, asked, removed => do
    let x ← il.item e
    let next := il.nextOf e
    let asked' := asked ++ [(x.key, x.val)]
    if predicate asked x.key x.val then
      let il ← il.removeElement e
      removeSelectedFrom predicate n il next asked' (removed ++ [x])
    else removeSelectedFrom predicate n il next asked' removed

/-- `RemoveSelected`, with the items that were removed. -/
def removeSelected (il : LinkedList K V) (predicate : ItemPredicate K V) :
    Option (LinkedList K V × List (Item K V)) :=
  removeSelectedFrom predicate il.heap.length il il.first [] []

end Remove

/-! ### Iterators -/

/-- `Iterator`, with the reference of the new iterator. -/
def iterator (il : LinkedList K V) (retIdx : RetentionIndex) : LinkedList K V × ℕ :=
  if retIdx < il.retIdx then
    ({ il with iters := il.iters ++ [⟨none, true⟩] }, il.iters.length)
  else
    ({ il with
        iters := il.iters ++ [⟨none, false⟩]
        iterators := il.iterators.insert retIdx
          ((il.iterators.lookup retIdx).getD [] ++ [il.iters.length]) },
      il.iters.length)

/-- One iteration of the loop of `GarbageCollect`. -/
def collectStep (il : LinkedList K V) : LinkedList K V :=
  { il with
    iters := ((il.iterators.lookup il.retIdx).getD []).foldl (fun iters i =>
      iters.modify i fun it => { it with stopped := true }) il.iters
    iterators := il.iterators.erase il.retIdx
    retIdx := il.retIdx + 1 }

/-- `GarbageCollect`: the loop counts the retention index of the list up to the given one. -/
def garbageCollect (il : LinkedList K V) (retIdx : RetentionIndex) : LinkedList K V :=
  collectStep^[retIdx.toNat - il.retIdx.toNat] il

/-- The element an iterator selects next. -/
def nextElement (il : LinkedList K V) (it : ElementIterator) : Option ℕ :=
  it.lastOutput.elim il.first il.nextOf

/-- The assignment `i.lastOutput = e`. -/
def setLastOutput (il : LinkedList K V) (i : ℕ) (e : Option ℕ) : LinkedList K V :=
  { il with iters := il.iters.modify i fun it => { it with lastOutput := e } }

/-- `Next`, for the iterator with the given reference: the item, if there is one. -/
def next (il : LinkedList K V) (i : ℕ) : Option (LinkedList K V × Option (Item K V)) := do
  let it ← il.iters[i]?
  if it.stopped then return (il, none)
  else
    match il.nextElement it with
    | none => return (il, none)
    | some e =>
      let x ← il.item e
      return (il.setLastOutput i (some e), some x)

/-- The loop of `NextWhile`, from an element on. -/
def nextWhileFrom (predicate : ItemPredicate K V) (i : ℕ) :
    ℕ → LinkedList K V → Option ℕ → List (Item K V) → Option (LinkedList K V × List (Item K V))
  | _, il, none, items => some (il, items)
  | 0, _, some _, _ => none
  | n + 1, il, some e, items => do
    let x ← il.item e
    if predicate (items.map fun y => (y.key, y.val)) x.key x.val then
      let il := il.setLastOutput i (some e)
      nextWhileFrom predicate i n il (il.nextOf e) (items ++ [x])
    else return (il, items)

/-- `NextWhile`, for the iterator with the given reference: the items, and whether the iterator has not
been stopped. -/
def nextWhile (il : LinkedList K V) (i : ℕ) (predicate : ItemPredicate K V) :
    Option (LinkedList K V × List (Item K V) × Bool) := do
  let it ← il.iters[i]?
  if it.stopped then return (il, [], false)
  else
    let (il, items) ← nextWhileFrom predicate i il.heap.length il (il.nextElement it) []
    return (il, items, true)

/-! ### Reading what was assigned -/

section Assign

variable {il : LinkedList K V} {e r : ℕ} {p : Option ℕ}

theorem item_isSome : (il.item r).isSome ↔ r < il.heap.length := by
  simp [item]

@[simp] theorem length_setNext : (il.setNext e p).heap.length = il.heap.length :=
  List.length_modify ..

@[simp] theorem length_setPrev : (il.setPrev e p).heap.length = il.heap.length :=
  List.length_modify ..

@[simp] theorem item_setNext : (il.setNext e p).item r = il.item r := by
  rw [item, item, setNext, List.getElem?_modify]
  split <;> simp [Function.comp_def]

@[simp] theorem item_setPrev : (il.setPrev e p).item r = il.item r := by
  rw [item, item, setPrev, List.getElem?_modify]
  split <;> simp [Function.comp_def]

@[simp] theorem prevOf_setNext : (il.setNext e p).prevOf r = il.prevOf r := by
  rw [prevOf, prevOf, setNext, List.getElem?_modify]
  cases il.heap[r]? <;> simp [apply_ite Element.prev]

@[simp] theorem nextOf_setPrev : (il.setPrev e p).nextOf r = il.nextOf r := by
  rw [nextOf, nextOf, setPrev, List.getElem?_modify]
  cases il.heap[r]? <;> simp [apply_ite Element.next]

theorem nextOf_setNext (hr : r < il.heap.length) :
    (il.setNext e p).nextOf r = if e = r then p else il.nextOf r := by
  rw [nextOf, nextOf, setNext, List.getElem?_modify, List.getElem?_eq_getElem hr]
  simp [apply_ite Element.next]

theorem prevOf_setPrev (hr : r < il.heap.length) :
    (il.setPrev e p).prevOf r = if e = r then p else il.prevOf r := by
  rw [prevOf, prevOf, setPrev, List.getElem?_modify, List.getElem?_eq_getElem hr]
  simp [apply_ite Element.prev]

/-- The pointers to the predecessors after the first conditional of `removeElement`. -/
theorem prevOf_unlinkNext (hr : r < il.heap.length) :
    (il.unlinkNext e).prevOf r = if il.nextOf e = some r then il.prevOf e else il.prevOf r := by
  rw [unlinkNext]
  cases il.nextOf e with
  | none => simp [prevOf]
  | some n => simp only [prevOf_setPrev hr, Option.some_inj]

@[simp] theorem nextOf_unlinkNext : (il.unlinkNext e).nextOf r = il.nextOf r := by
  rw [unlinkNext]
  cases il.nextOf e with
  | none => rfl
  | some n => rw [nextOf_setPrev]

theorem last_unlinkNext :
    (il.unlinkNext e).last = if il.nextOf e = none then il.prevOf e else il.last := by
  rw [unlinkNext]
  cases il.nextOf e <;> rfl

/-- The pointers to the successors after the second conditional of `removeElement`. -/
theorem nextOf_unlinkPrev (hr : r < il.heap.length) :
    (il.unlinkPrev e).nextOf r = if il.prevOf e = some r then il.nextOf e else il.nextOf r := by
  rw [unlinkPrev]
  cases il.prevOf e with
  | none => simp [nextOf]
  | some n => simp only [nextOf_setNext hr, Option.some_inj]

@[simp] theorem prevOf_unlinkPrev : (il.unlinkPrev e).prevOf r = il.prevOf r := by
  rw [unlinkPrev]
  cases il.prevOf e with
  | none => rfl
  | some n => rw [prevOf_setNext]

theorem first_unlinkPrev :
    (il.unlinkPrev e).first = if il.prevOf e = none then il.nextOf e else il.first := by
  rw [unlinkPrev]
  cases il.prevOf e <;> rfl

end Assign

section Alloc

variable {il : LinkedList K V} {r : ℕ} {key : K} {val : V}

theorem getElem?_alloc_of_lt (hr : r < il.heap.length) :
    (il.alloc key val).1.heap[r]? = il.heap[r]? := List.getElem?_append_left hr

theorem getElem?_alloc_self :
    (il.alloc key val).1.heap[il.heap.length]? = some ⟨none, none, key, val⟩ :=
  List.getElem?_concat_length

theorem item_alloc_of_lt (hr : r < il.heap.length) : (il.alloc key val).1.item r = il.item r := by
  rw [item, getElem?_alloc_of_lt hr, item]

theorem item_alloc_self :
    (il.alloc key val).1.item il.heap.length = some ⟨il.heap.length, key, val⟩ := by
  rw [item, getElem?_alloc_self, Option.map_some]

end Alloc

/-! ### The representation invariant -/

/-- **The representation invariant**: the elements of the list, in their order, are `refs`. -/
structure Rep [DecidableEq K] (il : LinkedList K V) (refs : List ℕ) : Prop where
  chain : Chain il.prevOf il.nextOf refs
  first_eq : il.first = refs.head?
  last_eq : il.last = refs.getLast?
  increasing : refs.Pairwise (· < ·)
  bound : ∀ r ∈ refs, r < il.heap.length
  index_iff : ∀ k r, il.index.lookup k = some r ↔ r ∈ refs ∧ ∃ x, il.item r = some x ∧ x.key = k

section Rep

variable [DecidableEq K] {il : LinkedList K V} {refs front tail : List ℕ} {e : ℕ}

theorem rep_new : Rep (new : LinkedList K V) [] where
  chain := chain_nil _ _
  first_eq := rfl
  last_eq := rfl
  increasing := .nil
  bound := nofun
  index_iff k r := by
    rw [new, AList.lookup_empty]
    simp

theorem Rep.nodup (h : Rep il refs) : refs.Nodup := h.increasing.imp ne_of_lt

omit [DecidableEq K] in
/-- Following the pointers from some place in the list on. -/
theorem follow_eq (front : List ℕ) (hchain : Chain il.prevOf il.nextOf (front ++ tail)) {n : ℕ}
    (hn : tail.length ≤ n) : il.follow n tail.head? = tail := by
  induction tail generalizing front n with
  | nil => cases n <;> rfl
  | cons e tail ih =>
    obtain ⟨n, rfl⟩ : ∃ m, n = m + 1 := Nat.exists_eq_succ_of_ne_zero (by simp at hn; omega)
    rw [List.head?_cons, follow, (hchain front e tail rfl).2]
    rw [ih (front ++ [e]) (by simpa using hchain) (Nat.le_of_succ_le_succ hn)]

/-- There are no more elements in the list than in the heap. -/
theorem Rep.length_le (h : Rep il refs) : refs.length ≤ il.heap.length := by
  have hsub : refs ⊆ List.range il.heap.length := fun r hr => List.mem_range.mpr (h.bound r hr)
  have hle := (h.nodup.subperm hsub).length_le
  rwa [List.length_range] at hle

/-- The elements found by following the pointers are those of the list. -/
theorem Rep.elements_eq (h : Rep il refs) : il.elements = refs := by
  rw [elements, h.first_eq]
  exact follow_eq [] h.chain h.length_le

/-- The elements of the list are found by their keys. -/
theorem Rep.exists_item (h : Rep il refs) {r : ℕ} (hr : r ∈ refs) : ∃ x, il.item r = some x :=
  Option.isSome_iff_exists.mp (item_isSome.mpr (h.bound r hr))

theorem Rep.notMem_index (h : Rep il refs) {k : K} :
    k ∉ il.index ↔ ∀ r ∈ refs, ∀ x, il.item r = some x → x.key ≠ k := by
  rw [← AList.lookup_eq_none, Option.eq_none_iff_forall_ne_some]
  constructor
  · intro hnone r hr x hx hk
    exact hnone r ((h.index_iff k r).mpr ⟨hr, x, hx, hk⟩)
  · intro hall r hr
    obtain ⟨hmem, x, hx, hk⟩ := (h.index_iff k r).mp hr
    exact hall r hmem x hx hk

/-- A new element is not in the list. -/
theorem Rep.alloc (h : Rep il refs) (key : K) (val : V) : Rep (il.alloc key val).1 refs where
  chain := by
    refine h.chain.congr (fun r hr => ?_) (fun r hr => ?_)
    · rw [prevOf, getElem?_alloc_of_lt (h.bound r hr), prevOf]
    · rw [nextOf, getElem?_alloc_of_lt (h.bound r hr), nextOf]
  first_eq := h.first_eq
  last_eq := h.last_eq
  increasing := h.increasing
  bound r hr := by
    have hlt := h.bound r hr
    simp only [LinkedList.alloc, List.length_append]
    omega
  index_iff k r := by
    refine (h.index_iff k r).trans (and_congr_right fun hr => ?_)
    rw [item_alloc_of_lt (h.bound r hr)]

omit [DecidableEq K] in
/-- What the assignments that link an element to the last one do. -/
theorem linkLast_spec (hfirst : il.first = none ↔ il.last = none) (hprev : il.prevOf e = none) :
    ∃ il', il.linkLast e = some il' ∧
      (∀ r < il.heap.length, il'.prevOf r = if r = e then il.last else il.prevOf r) ∧
      (∀ r < il.heap.length, il'.nextOf r = if il.last = some r then some e else il.nextOf r) ∧
      il'.first = il.first.or (some e) ∧ (∀ r, il'.item r = il.item r) ∧
      il'.heap.length = il.heap.length ∧ il'.index = il.index ∧ il'.iters = il.iters ∧
      il'.iterators = il.iterators ∧ il'.retIdx = il.retIdx := by
  cases hf : il.first with
  | none =>
    rw [hfirst.mp hf]
    refine ⟨{ il with first := some e }, by rw [linkLast, hf], fun r _ => ?_, fun r _ => ?_, rfl,
      fun _ => rfl, rfl, rfl, rfl, rfl, rfl⟩
    · split
      next heq => exact heq ▸ hprev
      next => rfl
    · rfl
  | some f =>
    obtain ⟨l, hl⟩ := Option.ne_none_iff_exists'.mp fun hnone =>
      Option.some_ne_none f (hf.symm.trans (hfirst.mpr hnone))
    rw [hl]
    refine ⟨(il.setNext l (some e)).setPrev e (some l), by rw [linkLast, hf, hl]; rfl,
      fun r hr => ?_, fun r hr => ?_, hf, fun r => by simp, by simp, rfl, rfl, rfl, rfl⟩
    · rw [prevOf_setPrev (by simpa using hr), prevOf_setNext]
      simp only [eq_comm]
    · rw [nextOf_setPrev, nextOf_setNext hr]
      simp only [Option.some_inj]

/-- **Appending an element** whose key is not in the list yet. -/
theorem Rep.appendElement (h : Rep il refs) {key : K} (val : V) (hkey : key ∉ il.index) :
    ∃ il', (il.alloc key val).1.appendElement il.heap.length = some (il', true) ∧
      Rep il' (refs ++ [il.heap.length]) ∧
      (∀ r, il'.item r = (il.alloc key val).1.item r) ∧ il'.iters = il.iters ∧
      il'.iterators = il.iterators ∧ il'.retIdx = il.retIdx := by
  set e := il.heap.length with he
  have halloc := h.alloc key val
  set il₁ := { (il.alloc key val).1 with index := il.index.insert key e } with hil₁
  have hlt : e < il₁.heap.length := by simp [hil₁, LinkedList.alloc, he]
  have hne : ∀ r ∈ refs, r ≠ e := fun r hr heq => by
    have hbound := h.bound r hr
    omega
  have hprev : il₁.prevOf e = none := by
    show (il.alloc key val).1.heap[e]?.bind Element.prev = none
    rw [he, getElem?_alloc_self, Option.bind_some]
  have hnext : il₁.nextOf e = none := by
    show (il.alloc key val).1.heap[e]?.bind Element.next = none
    rw [he, getElem?_alloc_self, Option.bind_some]
  have hfirst : il₁.first = none ↔ il₁.last = none := by
    rw [show il₁.first = refs.head? from h.first_eq, show il₁.last = refs.getLast? from h.last_eq,
      List.head?_eq_none_iff, List.getLast?_eq_none_iff]
  have hlast : il₁.last = refs.getLast? := h.last_eq
  obtain ⟨il₂, hlink, hprev', hnext', hfirst', hitem, hlen, hindex, hiters, hiterators, hretIdx⟩ :=
    linkLast_spec hfirst hprev
  refine ⟨{ il₂ with last := some e }, ?_, ?_, hitem, hiters, hiterators, hretIdx⟩
  · rw [LinkedList.appendElement, he, item_alloc_self, Option.bind_eq_bind, Option.bind_some]
    refine (if_neg hkey).trans ?_
    show (il₁.linkLast e >>= fun il => some ({ il with last := some e }, true)) = _
    rw [hlink]
    rfl
  · have hbound : ∀ r ∈ refs, r < il₁.heap.length := halloc.bound
    refine ⟨?_, ?_, ?_, ?_, ?_, fun k r => ?_⟩
    · refine halloc.chain.snoc h.nodup (fun r hr => ?_) ?_ (fun r hr => ?_) ?_
      · exact (hprev' r (hbound r hr)).trans (if_neg (hne r hr))
      · exact (hprev' e hlt).trans ((if_pos rfl).trans hlast)
      · exact (hnext' r (hbound r hr)).trans (by rw [hlast]; rfl)
      · refine (hnext' e hlt).trans ((if_neg fun hl => ?_).trans hnext)
        exact hne e (List.mem_of_getLast? (hlast.symm.trans hl)) rfl
    · rw [List.head?_append, List.head?_singleton, ← h.first_eq]
      exact hfirst'
    · rw [List.getLast?_concat]
    · rw [List.pairwise_append]
      refine ⟨h.increasing, List.pairwise_singleton _ _, fun r hr x hx => ?_⟩
      rw [List.mem_singleton.mp hx]
      exact h.bound r hr
    · show ∀ r ∈ refs ++ [e], r < il₂.heap.length
      rw [hlen]
      exact forall_mem_concat hbound hlt
    · show il₂.index.lookup k = some r ↔ _ ∧ ∃ x, il₂.item r = some x ∧ x.key = k
      rw [hindex, hitem]
      show (il.index.insert key e).lookup k = some r ↔
        _ ∧ ∃ x, (il.alloc key val).1.item r = some x ∧ x.key = k
      have hself : ∀ x, (il.alloc key val).1.item e = some x → x.key = key := by
        intro x hx
        rw [item_alloc_self] at hx
        rw [← Option.some.inj hx]
      rw [GoMap.lookup_insert_eq, List.mem_append, List.mem_singleton]
      rcases eq_or_ne k key with rfl | hk
      · rw [if_pos rfl, Option.some_inj]
        constructor
        · rintro rfl
          exact ⟨.inr rfl, _, item_alloc_self, rfl⟩
        · rintro ⟨hr | rfl, x, hx, hxk⟩
          · exact absurd hxk (halloc.notMem_index.mp hkey r hr x hx)
          · rfl
      · rw [if_neg hk]
        refine (halloc.index_iff k r).trans (and_congr_left ?_)
        rintro ⟨x, hx, hxk⟩
        refine ⟨.inl, fun hr => hr.resolve_right ?_⟩
        rintro rfl
        exact hk (hxk.symm.trans (hself x hx))

omit [DecidableEq K] in
/-- What the two conditionals of `removeElement` do to an element with two different neighbours. -/
theorem unlink_spec (hloop : il.nextOf e ≠ some e) (he : e < il.heap.length) :
    (∀ r < il.heap.length, ((il.unlinkNext e).unlinkPrev e).prevOf r =
      if il.nextOf e = some r then il.prevOf e else il.prevOf r) ∧
    (∀ r < il.heap.length, ((il.unlinkNext e).unlinkPrev e).nextOf r =
      if il.prevOf e = some r then il.nextOf e else il.nextOf r) ∧
    ((il.unlinkNext e).unlinkPrev e).first =
      (if il.prevOf e = none then il.nextOf e else il.first) ∧
    ((il.unlinkNext e).unlinkPrev e).last =
      (if il.nextOf e = none then il.prevOf e else il.last) := by
  have hprev : (il.unlinkNext e).prevOf e = il.prevOf e := by
    rw [prevOf_unlinkNext he, if_neg hloop]
  have hlen : (il.unlinkNext e).heap.length = il.heap.length := by
    rw [unlinkNext]
    cases il.nextOf e <;> simp
  have hfirst : (il.unlinkNext e).first = il.first := by
    rw [unlinkNext]
    cases il.nextOf e <;> rfl
  have hlast : ((il.unlinkNext e).unlinkPrev e).last = (il.unlinkNext e).last := by
    rw [unlinkPrev]
    cases (il.unlinkNext e).prevOf e <;> rfl
  refine ⟨fun r hr => ?_, fun r hr => ?_, ?_, ?_⟩
  · rw [prevOf_unlinkPrev, prevOf_unlinkNext hr]
  · rw [nextOf_unlinkPrev (hlen ▸ hr), hprev, nextOf_unlinkNext, nextOf_unlinkNext]
  · rw [first_unlinkPrev, hprev, nextOf_unlinkNext, hfirst]
  · rw [hlast, last_unlinkNext]

omit [DecidableEq K] in
theorem unlink_frame (il : LinkedList K V) (e : ℕ) :
    (∀ r, ((il.unlinkNext e).unlinkPrev e).item r = il.item r) ∧
      ((il.unlinkNext e).unlinkPrev e).index = il.index ∧
      ((il.unlinkNext e).unlinkPrev e).iters = il.iters ∧
      ((il.unlinkNext e).unlinkPrev e).iterators = il.iterators ∧
      ((il.unlinkNext e).unlinkPrev e).retIdx = il.retIdx := by
  rw [unlinkPrev, unlinkNext]
  cases il.nextOf e with
  | none =>
    cases ({ il with last := il.prevOf e } : LinkedList K V).prevOf e with
    | none => exact ⟨fun _ => rfl, rfl, rfl, rfl, rfl⟩
    | some p => exact ⟨fun _ => item_setNext, rfl, rfl, rfl, rfl⟩
  | some n =>
    cases (il.setPrev n (il.prevOf e)).prevOf e with
    | none => exact ⟨fun _ => item_setPrev, rfl, rfl, rfl, rfl⟩
    | some p => exact ⟨fun _ => item_setNext.trans item_setPrev, rfl, rfl, rfl, rfl⟩

/-- **Removing an element** of the list. -/
theorem Rep.removeElement (h : Rep il (front ++ e :: tail)) :
    ∃ il', il.removeElement e = some il' ∧ Rep il' (front ++ tail) ∧
      (∀ r, il'.item r = il.item r) ∧ il'.iters = (il.updateIterators e).iters ∧
      il'.iterators = il.iterators ∧ il'.retIdx = il.retIdx := by
  have hmem : e ∈ front ++ e :: tail := by simp
  have hsub := (List.Sublist.refl front).append (List.sublist_cons_self e tail)
  have hbound : ∀ r ∈ front ++ tail, r < il.heap.length := fun r hr => h.bound r (hsub.subset hr)
  obtain ⟨hgone, hnodup⟩ := List.nodup_cons.mp (List.nodup_middle.mp h.nodup)
  obtain ⟨x, hx⟩ := h.exists_item hmem
  obtain ⟨hprev, hnext⟩ := h.chain front e tail rfl
  set il₁ := ({ il with index := il.index.erase x.key }).updateIterators e with hil₁
  have hloop : il₁.nextOf e ≠ some e := by
    show il.nextOf e ≠ some e
    rw [hnext]
    exact fun heq => hgone (List.mem_append_right _ (List.mem_of_head? heq))
  obtain ⟨hprev', hnext', hfirst', hlast'⟩ := unlink_spec hloop (h.bound e hmem)
  obtain ⟨hitem, hindex, hiters, hiterators, hretIdx⟩ := unlink_frame il₁ e
  refine ⟨(il₁.unlinkNext e).unlinkPrev e, ?_, ⟨?_, ?_, ?_, ?_, ?_, fun k r => ?_⟩, hitem, hiters,
    hiterators, hretIdx⟩
  · rw [LinkedList.removeElement, hx]
    rfl
  · refine h.chain.remove hnodup (fun r hr => ?_) (fun r hr => ?_)
    · rw [hprev' r (hbound r hr), ← hprev, ← hnext]
      rfl
    · rw [hnext' r (hbound r hr), ← hprev, ← hnext]
      rfl
  · rw [hfirst', show il₁.prevOf e = front.getLast? from hprev,
      show il₁.nextOf e = tail.head? from hnext, show il₁.first = _ from h.first_eq]
    cases front with
    | nil => rfl
    | cons f front => simp
  · rw [hlast', show il₁.prevOf e = front.getLast? from hprev,
      show il₁.nextOf e = tail.head? from hnext, show il₁.last = _ from h.last_eq]
    cases tail with
    | nil => simp
    | cons t tail => simp [List.getLast?_append]
  · exact h.increasing.sublist hsub
  · intro r hr
    rw [← item_isSome, hitem]
    exact item_isSome.mpr (hbound r hr)
  · rw [hindex, hitem]
    show (il.index.erase x.key).lookup k = some r ↔ _ ∧ ∃ y, il.item r = some y ∧ y.key = k
    rcases eq_or_ne k x.key with rfl | hk
    · -- the removed element was the only one with its key
      rw [AList.lookup_erase]
      refine ⟨nofun, ?_⟩
      rintro ⟨hr, y, hy, hkey⟩
      have hlookup := (h.index_iff x.key e).mpr ⟨hmem, x, hx, rfl⟩
      rw [(h.index_iff x.key r).mpr ⟨hsub.subset hr, y, hy, hkey⟩] at hlookup
      exact absurd (Option.some.inj hlookup ▸ hr) hgone
    · rw [AList.lookup_erase_ne hk, h.index_iff k r]
      refine and_congr_left ?_
      rintro ⟨y, hy, rfl⟩
      have hne : r ≠ e := by
        rintro rfl
        exact hk (congrArg Item.key (Option.some.inj (hy.symm.trans hx)))
      simp [hne]

/-- A loop of assignments, where making one of them twice is the same as making it once. -/
theorem getElem?_foldl_modify {α : Type} {g : α → α} (hg : ∀ a, g (g a) = g a) (is : List ℕ)
    (l : List α) (i : ℕ) :
    (is.foldl (fun l i => l.modify i g) l)[i]? = l[i]?.map fun a => if i ∈ is then g a else a := by
  induction is generalizing l with
  | nil => simp
  | cons j is ih =>
    rw [List.foldl_cons, ih, List.getElem?_modify, Option.map_eq_map, Option.map_map]
    refine congrArg (Option.map · l[i]?) (funext fun a => ?_)
    rcases eq_or_ne j i with rfl | hne
    · simp [hg]
    · simp [hne, hne.symm]

theorem length_foldl_modify {α : Type} (g : α → α) (is : List ℕ) (l : List α) :
    (is.foldl (fun l i => l.modify i g) l).length = l.length := by
  induction is generalizing l with
  | nil => rfl
  | cons i is ih => rw [List.foldl_cons, ih, List.length_modify]

omit [DecidableEq K] in
theorem length_updateIterators (il : LinkedList K V) (e : ℕ) :
    (il.updateIterators e).iters.length = il.iters.length := by
  rw [updateIterators, ← List.foldl_flatMap]
  exact length_foldl_modify _ _ _

/-- The iterators in the map of those that have not been garbage-collected. -/
def listed (il : LinkedList K V) : List ℕ := il.iterators.pairs.flatMap Prod.snd

omit [DecidableEq K] in
theorem mem_listed {i : ℕ} :
    i ∈ il.listed ↔ ∃ idx, i ∈ (il.iterators.lookup idx).getD [] := by
  rw [listed, List.mem_flatMap]
  constructor
  · rintro ⟨⟨idx, is⟩, hpair, hi⟩
    refine ⟨idx, ?_⟩
    rwa [GoMap.mem_pairs.mp hpair, Option.getD_some]
  · rintro ⟨idx, hi⟩
    cases hlookup : il.iterators.lookup idx with
    | none => simp [hlookup] at hi
    | some is =>
      rw [hlookup, Option.getD_some] at hi
      exact ⟨(idx, is), GoMap.mem_pairs.mpr hlookup, hi⟩

omit [DecidableEq K] in
/-- **Moving the iterators** away from an element. -/
theorem getElem?_updateIterators (hloop : il.prevOf e ≠ some e) (i : ℕ) :
    (il.updateIterators e).iters[i]? = il.iters[i]?.map fun it =>
      if i ∈ il.listed then updateIterator e (il.prevOf e) it else it := by
  rw [updateIterators, ← List.foldl_flatMap]
  refine getElem?_foldl_modify (fun it => ?_) il.listed il.iters i
  -- an iterator that has been moved does not point to the element any more
  by_cases hlast : it.lastOutput = some e
  · simp [updateIterator, hlast, hloop]
  · simp [updateIterator, hlast]

end Rep

end LinkedList

end Mir
