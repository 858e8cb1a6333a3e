import Mir.Orderers.MessageBuffer

/-!
# The recorded size of a message buffer

`messagebuffer.MessageBuffer` with its `size` field and its calls. `Store` and `Resize` remove the oldest
message while the recorded size is too large, without asking whether there is one. The recorded size is
the sum of the sizes of the messages (`Counted`), so the loops stop in time, and they keep what
`MessageBuffer.evict` keeps: the longest suffix that fits (`makeRoom_eq`, `evict_longest`).

`run_keeps_newest` is about all sequences of calls. Sizes and capacities are numbers of bytes in memory,
so sums of them are taken without overflow.
-/

namespace Mir

/-- `messagebuffer.MessageBuffer` with its recorded size. -/
structure SizedBuffer (M : Type) where
  capacity : ℤ
  size : ℤ
  messages : List M

namespace SizedBuffer

open MessageBuffer (evict)

variable {M : Type} (protoSize : M → ℕ)

/-- `New`. -/
def new (capacity : ℤ) : SizedBuffer M := ⟨capacity, 0, []⟩

/-- The loops of `Store`, for a message of size `msgSize`, and of `Resize`, where it is zero. `remove`
dereferences the element it is given, and there is none in front of an empty list. -/
def makeRoom (capacity msgSize : ℤ) : ℤ → List M → Fallible (ℤ × List M)
  | size, [] =>
    if capacity < size + msgSize then .error (.panic .nilDereference) else .ok (size, [])
  | size, msg :: rest =>
    if capacity < size + msgSize then makeRoom capacity msgSize (size - protoSize msg) rest
    else .ok (size, msg :: rest)

/-- `Store`. -/
def store (mb : SizedBuffer M) (msg : M) : Fallible (SizedBuffer M × Bool) :=
  if mb.capacity < protoSize msg then .ok (mb, false)
  else do
    let (size, messages) ← makeRoom protoSize mb.capacity (protoSize msg) mb.size mb.messages
    return ({ mb with size := size + protoSize msg, messages := messages ++ [msg] }, true)

/-- `Resize`. -/
def resize (mb : SizedBuffer M) (newCapacity : ℤ) : Fallible (SizedBuffer M) := do
  let (size, messages) ← makeRoom protoSize newCapacity 0 mb.size mb.messages
  return ⟨newCapacity, size, messages⟩

/-- A call of one of the functions given to `Iterate`. -/
inductive Callback (M : Type)
  | filter (msg : M) (result : Applicable)
  | apply (msg : M)
  deriving DecidableEq

/-- The loop of `Iterate`. `kept` are the messages in front of the current element; what `filter` returns
can depend on all the calls before. -/
def iterateFrom (filter : List (Callback M) → M → Applicable) :
    List M → ℤ → List M → List (Callback M) → ℤ × List M × List (Callback M)
  | [], size, kept, calls => (size, kept, calls)
  | msg :: rest, size, kept, calls =>
    match filter calls msg with
    | .past => iterateFrom filter rest (size - protoSize msg) kept (calls ++ [.filter msg .past])
    | .current =>
      iterateFrom filter rest (size - protoSize msg) kept
        (calls ++ [.filter msg .current, .apply msg])
    | .future => iterateFrom filter rest size (kept ++ [msg]) (calls ++ [.filter msg .future])
    | .invalid =>
      iterateFrom filter rest (size - protoSize msg) kept (calls ++ [.filter msg .invalid])

/-- `Iterate`: the buffer, and the calls of the functions given. -/
def iterate (mb : SizedBuffer M) (filter : List (Callback M) → M → Applicable) :
    SizedBuffer M × List (Callback M) :=
  let (size, messages, calls) := iterateFrom protoSize filter mb.messages mb.size [] []
  ({ mb with size := size, messages := messages }, calls)

/-- The calls of a message buffer. -/
inductive Call (M : Type)
  | store (msg : M)
  | resize (newCapacity : ℤ)
  | iterate (filter : List (Callback M) → M → Applicable)

/-- What a call returns, or does through the functions it was given. -/
inductive Reply (M : Type)
  | stored (stored : Bool)
  | resized
  | iterated (calls : List (Callback M))

/-- A call. -/
def call (mb : SizedBuffer M) : Call M → Fallible (SizedBuffer M × Reply M)
  | .store msg => do
    let (mb, stored) ← mb.store protoSize msg
    return (mb, .stored stored)
  | .resize newCapacity => do
    let mb ← mb.resize protoSize newCapacity
    return (mb, .resized)
  | .iterate filter => .ok ((mb.iterate protoSize filter).1, .iterated (mb.iterate protoSize filter).2)

/-- A sequence of calls. -/
def run (mb : SizedBuffer M) (calls : List (Call M)) : Fallible (SizedBuffer M) :=
  calls.foldlM (fun mb c => do return (← mb.call protoSize c).1) mb

/-! ### What the calls do -/

/-- The recorded size is the sum of the sizes, and within the capacity. -/
structure Counted (mb : SizedBuffer M) : Prop where
  size_eq : mb.size = MessageBuffer.size protoSize mb.messages
  size_le : mb.size ≤ mb.capacity

/-- The longest suffix of `ms` that fits into `room`. -/
structure LongestFitting (ms : List M) (room : ℤ) (kept : List M) : Prop where
  suffix : kept <:+ ms
  fits : MessageBuffer.size protoSize kept ≤ room
  longest : ∀ t, t <:+ ms → MessageBuffer.size protoSize t ≤ room → t <:+ kept

/-- The calls made for one message, and what was returned for it. -/
def callbacks (answer : M × Applicable) : List (Callback M) :=
  .filter answer.1 answer.2 :: if answer.2 = .current then [.apply answer.1] else []

/-- What `filter` returned for the messages, in order, when it was called for each of them after `calls`
and the calls made for those before it. -/
structure Answered (filter : List (Callback M) → M → Applicable) (calls : List (Callback M))
    (ms : List M) (answers : List (M × Applicable)) : Prop where
  messages : answers.map Prod.fst = ms
  answer : ∀ xs msg a ys, answers = xs ++ (msg, a) :: ys →
    a = filter (calls ++ xs.flatMap callbacks) msg

/-- The messages classified as future ones. -/
def futures (answers : List (M × Applicable)) : List M :=
  (answers.filter fun answer => answer.2 = .future).map Prod.fst

/-- `filter` is called once for each message, in order, and `apply` right after it for the current ones;
the future ones stay. -/
def Iterated (filter : List (Callback M) → M → Applicable) (ms kept : List M)
    (calls : List (Callback M)) : Prop :=
  ∃ answers, Answered filter [] ms answers ∧
    calls = answers.flatMap callbacks ∧ kept = futures answers

/-- What a call does to a buffer. -/
def CallSpec (mb mb' : SizedBuffer M) : Call M → Reply M → Prop
  | .store msg, .stored false => mb.capacity < protoSize msg ∧ mb' = mb
  | .store msg, .stored true =>
    protoSize msg ≤ mb.capacity ∧ mb'.capacity = mb.capacity ∧
      ∃ kept, LongestFitting protoSize mb.messages (mb.capacity - protoSize msg) kept ∧
        mb'.messages = kept ++ [msg]
  | .resize newCapacity, .resized =>
    mb'.capacity = newCapacity ∧ LongestFitting protoSize mb.messages newCapacity mb'.messages
  | .iterate filter, .iterated calls =>
    mb'.capacity = mb.capacity ∧ Iterated filter mb.messages mb'.messages calls
  | _, _ => False

theorem size_cons (msg : M) (ms : List M) :
    MessageBuffer.size protoSize (msg :: ms) = protoSize msg + MessageBuffer.size protoSize ms := by
  simp [MessageBuffer.size]

/-- **The loops stop in time**, with what is left by an eviction. -/
theorem makeRoom_eq {capacity msgSize : ℕ} (hfit : msgSize ≤ capacity) (ms : List M) :
    makeRoom protoSize capacity msgSize (MessageBuffer.size protoSize ms) ms =
      .ok (MessageBuffer.size protoSize (evict protoSize capacity msgSize ms),
        evict protoSize capacity msgSize ms) := by
  induction ms with
  | nil =>
    rw [makeRoom, evict, if_neg]
    simpa [MessageBuffer.size] using hfit
  | cons msg ms ih =>
    rw [makeRoom, evict]
    by_cases hover : capacity < MessageBuffer.size protoSize (msg :: ms) + msgSize
    · have hsize : (MessageBuffer.size protoSize (msg :: ms) : ℤ) - protoSize msg =
          MessageBuffer.size protoSize ms := by
        rw [size_cons]
        omega
      rw [if_pos (by exact_mod_cast hover), if_pos hover, hsize]
      exact ih
    · rw [if_neg (by exact_mod_cast hover), if_neg hover]

/-- **An eviction keeps as much as fits.** -/
theorem evict_longest {capacity msgSize : ℕ} (hfit : msgSize ≤ capacity) (ms : List M) :
    LongestFitting protoSize ms (capacity - msgSize : ℤ) (evict protoSize capacity msgSize ms) := by
  refine ⟨MessageBuffer.evict_suffix protoSize _ _ _, ?_, fun t ht htfit => ?_⟩
  · have hle := MessageBuffer.size_evict_le protoSize hfit ms
    omega
  · induction ms with
    | nil => exact ht
    | cons msg ms ih =>
      rw [evict]
      split
      next hover =>
        rcases List.suffix_cons_iff.mp ht with rfl | htail
        · omega
        · exact ih htail
      next => exact ht

variable {protoSize} {mb : SizedBuffer M}

theorem Counted.store (h : mb.Counted protoSize) (hcap : 0 ≤ mb.capacity) (msg : M) :
    ∃ mb' stored, mb.store protoSize msg = .ok (mb', stored) ∧ mb'.Counted protoSize ∧
      CallSpec protoSize mb mb' (.store msg) (.stored stored) := by
  obtain ⟨capacity, size, ms⟩ := mb
  obtain ⟨hsize, hle⟩ := h
  dsimp only at hsize hle hcap
  subst hsize
  obtain ⟨capacity, rfl⟩ := Int.eq_ofNat_of_zero_le hcap
  rw [SizedBuffer.store]
  by_cases hlarge : (capacity : ℤ) < protoSize msg
  · rw [if_pos hlarge]
    exact ⟨_, false, rfl, ⟨rfl, hle⟩, hlarge, rfl⟩
  · have hfit : protoSize msg ≤ capacity := by omega
    rw [if_neg hlarge]
    simp only [makeRoom_eq protoSize hfit, Fallible.ok_bind]
    have hlongest := evict_longest protoSize hfit ms
    have hroom := hlongest.fits
    refine ⟨_, true, rfl, ⟨?_, ?_⟩, Int.ofNat_le.mpr hfit, rfl, _, hlongest, rfl⟩
    · simp [MessageBuffer.size]
    · show (_ : ℤ) + protoSize msg ≤ capacity
      omega

theorem Counted.resize (h : mb.Counted protoSize) {newCapacity : ℤ} (hcap : 0 ≤ newCapacity) :
    ∃ mb', mb.resize protoSize newCapacity = .ok mb' ∧ mb'.Counted protoSize ∧
      CallSpec protoSize mb mb' (.resize newCapacity) .resized := by
  obtain ⟨newCapacity, rfl⟩ := Int.eq_ofNat_of_zero_le hcap
  have hroom := makeRoom_eq protoSize newCapacity.zero_le mb.messages
  have hlongest := evict_longest protoSize newCapacity.zero_le mb.messages
  rw [Nat.cast_zero] at hroom hlongest
  rw [sub_zero] at hlongest
  rw [SizedBuffer.resize, h.size_eq, hroom, Fallible.ok_bind]
  exact ⟨_, rfl, ⟨rfl, hlongest.fits⟩, rfl, hlongest⟩

theorem Answered.cons {filter : List (Callback M) → M → Applicable} {calls : List (Callback M)}
    {msg : M} {a : Applicable} {rest : List M} {answers : List (M × Applicable)}
    (ha : filter calls msg = a)
    (h : Answered filter (calls ++ callbacks (msg, a)) rest answers) :
    Answered filter calls (msg :: rest) ((msg, a) :: answers) := by
  refine ⟨by rw [List.map_cons, h.messages], fun xs m b ys hsplit => ?_⟩
  cases xs with
  | nil =>
    obtain ⟨hfirst, -⟩ := List.cons.inj hsplit
    cases hfirst
    simp [ha]
  | cons x xs =>
    obtain ⟨rfl, htail⟩ := List.cons.inj hsplit
    rw [h.answer xs m b ys htail, List.flatMap_cons, List.append_assoc]

variable (protoSize) in
/-- What the loop of `Iterate` adds to the messages kept and to the calls made: the answers it gets for
the messages ahead. -/
theorem iterateFrom_spec (filter : List (Callback M) → M → Applicable) (rest : List M) (size : ℤ)
    (kept : List M) (calls : List (Callback M)) :
    ∃ answers, Answered filter calls rest answers ∧
      iterateFrom protoSize filter rest size kept calls =
        (size - MessageBuffer.size protoSize rest + MessageBuffer.size protoSize (futures answers),
          kept ++ futures answers, calls ++ answers.flatMap callbacks) := by
  induction rest generalizing size kept calls with
  | nil => exact ⟨[], ⟨rfl, by simp⟩, by simp [iterateFrom, futures, MessageBuffer.size]⟩
  | cons msg rest ih =>
    cases ha : filter calls msg with
    | future =>
      obtain ⟨answers, hanswers, hrest⟩ := ih size (kept ++ [msg]) (calls ++ callbacks (msg, .future))
      refine ⟨_, hanswers.cons ha, ?_⟩
      simp only [iterateFrom, ha]
      refine hrest.trans ?_
      simp only [futures, size_cons, List.filter_cons, decide_true, if_true, List.map_cons,
        List.flatMap_cons, List.append_assoc, List.singleton_append]
      congr 1
      push_cast
      ring
    | past | current | invalid =>
      obtain ⟨answers, hanswers, hrest⟩ :=
        ih (size - protoSize msg) kept (calls ++ callbacks (msg, filter calls msg))
      rw [ha] at hanswers hrest
      refine ⟨_, hanswers.cons ha, ?_⟩
      simp only [iterateFrom, ha]
      refine hrest.trans ?_
      simp [futures, size_cons, sub_sub]

theorem Counted.iterate (h : mb.Counted protoSize) (filter : List (Callback M) → M → Applicable) :
    (mb.iterate protoSize filter).1.Counted protoSize ∧
      CallSpec protoSize mb (mb.iterate protoSize filter).1 (.iterate filter)
        (.iterated (mb.iterate protoSize filter).2) := by
  obtain ⟨answers, hanswers, heq⟩ := iterateFrom_spec protoSize filter mb.messages mb.size [] []
  rw [h.size_eq, sub_self, zero_add, List.nil_append] at heq
  have hsize : MessageBuffer.size protoSize (futures answers) ≤
      MessageBuffer.size protoSize mb.messages := by
    rw [← hanswers.messages]
    exact List.Sublist.sum_le_sum ((List.filter_sublist.map _).map _) fun _ _ => Nat.zero_le _
  have hle : (MessageBuffer.size protoSize (futures answers) : ℤ) ≤ mb.capacity := by
    have hle := h.size_le
    rw [h.size_eq] at hle
    omega
  simp only [SizedBuffer.iterate, h.size_eq, heq]
  exact ⟨⟨rfl, hle⟩, rfl, answers, hanswers, rfl, rfl⟩

/-! ### Sequences of calls -/

/-- The capacity asked for is not negative. -/
def Call.NonNeg : Call M → Prop
  | .resize newCapacity => 0 ≤ newCapacity
  | .store _ | .iterate _ => True

/-- One call, on a buffer whose recorded size is right. -/
theorem Counted.call (h : mb.Counted protoSize) (hcap : 0 ≤ mb.capacity) {c : Call M}
    (hc : c.NonNeg) :
    ∃ mb' reply, mb.call protoSize c = .ok (mb', reply) ∧ mb'.Counted protoSize ∧
      CallSpec protoSize mb mb' c reply := by
  cases c with
  | store msg =>
    obtain ⟨mb', stored, hstore, hcounted, hspec⟩ := h.store hcap msg
    exact ⟨mb', .stored stored, by rw [SizedBuffer.call, hstore]; rfl, hcounted, hspec⟩
  | resize newCapacity =>
    obtain ⟨mb', hresize, hcounted, hspec⟩ := h.resize hc
    exact ⟨mb', .resized, by rw [SizedBuffer.call, hresize]; rfl, hcounted, hspec⟩
  | iterate filter => exact ⟨_, _, rfl, h.iterate filter⟩

theorem CallSpec.capacity_nonneg {mb' : SizedBuffer M} {c : Call M} {reply : Reply M}
    (h : CallSpec protoSize mb mb' c reply) (hcap : 0 ≤ mb.capacity) (hc : c.NonNeg) :
    0 ≤ mb'.capacity := by
  match c, reply, h with
  | .store msg, .stored false, h => exact h.2 ▸ hcap
  | .store msg, .stored true, h => exact h.2.1 ▸ hcap
  | .resize newCapacity, .resized, h => exact h.1 ▸ hc
  | .iterate filter, .iterated calls, h => exact h.1 ▸ hcap

/-- **A message buffer keeps the newest messages within its capacity.** All sequences of calls complete,
with the recorded size equal to the sum of the sizes and within the capacity, and every further call
does to the buffer what its specification says. -/
theorem run_keeps_newest (protoSize : M → ℕ) {capacity : ℤ} (hcap : 0 ≤ capacity)
    {calls : List (Call M)} (hcalls : ∀ c ∈ calls, c.NonNeg) :
    ∃ mb, run protoSize (new capacity) calls = .ok mb ∧ mb.Counted protoSize ∧
      ∀ c : Call M, c.NonNeg →
        ∃ mb' reply, mb.call protoSize c = .ok (mb', reply) ∧ CallSpec protoSize mb mb' c reply := by
  obtain ⟨mb, hrun, hcounted, hmb⟩ := FallibleLoop.foldlM_completes
    (f := fun (mb : SizedBuffer M) c => do return (← mb.call protoSize c).1)
    (I := fun _ mb => mb.Counted protoSize ∧ 0 ≤ mb.capacity)
    (b := new capacity) (l := calls) ⟨⟨rfl, hcap⟩, hcap⟩ (by
      intro xs c ys hsplit mb ⟨hcounted, hmb⟩
      have hc : c.NonNeg := hcalls c (hsplit ▸ List.mem_append_right _ List.mem_cons_self)
      obtain ⟨mb', reply, hcall, hcounted', hspec⟩ := hcounted.call hmb hc
      exact ⟨mb', by rw [hcall]; rfl, hcounted', hspec.capacity_nonneg hmb hc⟩)
  refine ⟨mb, hrun, hcounted, fun c hc => ?_⟩
  obtain ⟨mb', reply, hcall, -, hspec⟩ := hcounted.call hmb hc
  exact ⟨mb', reply, hcall, hspec⟩

/-- Messages of sizes 3 and 4 are stored in 5 bytes, the second pushing out the first. -/
theorem run_keeps_newest_evicts :
    ∃ mb, run (fun n : ℕ => n) (new 5) [.store 3, .store 4] = .ok mb ∧ mb.messages = [4] ∧
      mb.Counted (fun n => n) := by
  have hcalls : ∀ c ∈ [Call.store 3, .store 4], c.NonNeg := by simp [Call.NonNeg]
  have hcap : (0 : ℤ) ≤ 5 := by decide
  obtain ⟨mb, hrun, hcounted, -⟩ := run_keeps_newest (fun n : ℕ => n) hcap hcalls
  refine ⟨mb, hrun, ?_, hcounted⟩
  cases hrun
  rfl

end SizedBuffer

end Mir
