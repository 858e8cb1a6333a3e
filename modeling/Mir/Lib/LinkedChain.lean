import Mathlib

/-!
# Doubly linked chains and their readers

Elements with pointers to a predecessor and a successor form a **chain** along a list if each of them
points to its neighbours in the list (`Chain`). A **reader** of the chain remembers the element it has
read last; `Reads` says which part of the list it has read.

Adding an element at the end and removing an element keep chains. A reader whose element is removed
goes back to the predecessor. `Tracks` relates a reader to all that it has ever read: what is still
in the list of it is a first part of the list, so nothing is read twice and nothing is left out.
-/

namespace LinkedChain

variable {R : Type*}

/-! ### Chains -/

/-- Each element of the list points to its neighbours. -/
def Chain (prev next : R → Option R) (refs : List R) : Prop :=
  ∀ front r rest, refs = front ++ r :: rest → prev r = front.getLast? ∧ next r = rest.head?

section Chain

variable {prev next prev' next' : R → Option R} {refs front rest : List R} {e r : R}

theorem chain_nil (prev next : R → Option R) : Chain prev next [] := by
  intro front r rest h
  simp at h

theorem Chain.congr (h : Chain prev next refs) (hprev : ∀ r ∈ refs, prev' r = prev r)
    (hnext : ∀ r ∈ refs, next' r = next r) : Chain prev' next' refs := by
  rintro front r rest rfl
  have hmem : r ∈ front ++ r :: rest := by simp
  rw [hprev r hmem, hnext r hmem]
  exact h front r rest rfl

/-- The pointers to the predecessors are the inverse of those to the successors. -/
theorem Chain.next_eq_some_iff (h : Chain prev next refs) (he : e ∈ refs) (hr : r ∈ refs) :
    next e = some r ↔ prev r = some e := by
  constructor
  · intro hnext
    obtain ⟨front, rest, rfl⟩ := List.append_of_mem he
    rw [(h front e rest rfl).2] at hnext
    obtain ⟨rest, rfl⟩ := List.head?_eq_some_iff.mp hnext
    rw [(h (front ++ [e]) r rest (by simp)).1, List.getLast?_concat]
  · intro hprev
    obtain ⟨front, rest, rfl⟩ := List.append_of_mem hr
    rw [(h front r rest rfl).1] at hprev
    obtain ⟨front, rfl⟩ := List.getLast?_eq_some_iff.mp hprev
    rw [(h front e (r :: rest) (by simp)).2, List.head?_cons]

theorem getLast?_ne_of_nodup (h : (front ++ r :: rest).Nodup) (hne : rest ≠ []) :
    (front ++ r :: rest).getLast? ≠ some r := by
  obtain ⟨init, x, rfl⟩ := rest.eq_nil_or_concat.resolve_left hne
  rw [List.concat_eq_append, ← List.cons_append, ← List.append_assoc, List.getLast?_concat]
  intro heq
  obtain rfl := Option.some.inj heq
  have hdup := List.Nodup.of_append_right h
  rw [List.concat_eq_append, List.nodup_cons] at hdup
  exact hdup.1 (List.mem_append_right _ (List.mem_singleton_self _))

/-- An element is added at the end. -/
theorem Chain.snoc [DecidableEq R] (h : Chain prev next refs) (hnodup : refs.Nodup)
    (hprev : ∀ r ∈ refs, prev' r = prev r) (hprev_e : prev' e = refs.getLast?)
    (hnext : ∀ r ∈ refs, next' r = if refs.getLast? = some r then some e else next r)
    (hnext_e : next' e = none) : Chain prev' next' (refs ++ [e]) := by
  intro front r rest heq
  rcases rest.eq_nil_or_concat with rfl | ⟨rest, x, rfl⟩
  · obtain ⟨rfl, hlast⟩ := List.append_inj' heq rfl
    obtain rfl := List.singleton_inj.mp hlast
    exact ⟨hprev_e, hnext_e⟩
  · rw [List.concat_eq_append, ← List.cons_append, ← List.append_assoc] at heq
    obtain ⟨rfl, hlast⟩ := List.append_inj' heq rfl
    obtain rfl := List.singleton_inj.mp hlast
    have hmem : r ∈ front ++ r :: rest := by simp
    obtain ⟨hp, hn⟩ := h front r rest rfl
    refine ⟨(hprev r hmem).trans hp, ?_⟩
    rw [hnext r hmem, List.concat_eq_append]
    cases rest with
    | nil => simp
    | cons y rest => rw [if_neg (getLast?_ne_of_nodup hnodup (List.cons_ne_nil _ _)), hn]; rfl

/-- An element is removed: its neighbours are linked to each other. -/
theorem Chain.remove [DecidableEq R] (h : Chain prev next (front ++ e :: rest))
    (hnodup : (front ++ rest).Nodup)
    (hprev : ∀ r ∈ front ++ rest, prev' r = if rest.head? = some r then front.getLast? else prev r)
    (hnext : ∀ r ∈ front ++ rest, next' r = if front.getLast? = some r then rest.head? else next r) :
    Chain prev' next' (front ++ rest) := by
  -- an element behind the removed one
  have hbehind : ∀ c r t, rest = c ++ r :: t →
      prev' r = (front ++ c).getLast? ∧ next' r = t.head? := by
    rintro c r t rfl
    have hmem : r ∈ front ++ (c ++ r :: t) := by simp
    obtain ⟨hp, hn⟩ := h (front ++ e :: c) r t (by simp)
    rw [hprev r hmem, hnext r hmem, hp, hn]
    have hfront : front.getLast? ≠ some r := fun hlast =>
      List.disjoint_of_nodup_append hnodup (List.mem_of_getLast? hlast) (by simp)
    refine ⟨?_, if_neg hfront⟩
    cases c with
    | nil => simp
    | cons x c =>
      have hx : x ≠ r := by
        rintro rfl
        exact (List.nodup_cons.mp hnodup.of_append_right).1 (by simp)
      rw [List.cons_append, List.head?_cons, if_neg (by simpa using hx)]
      simp [List.getLast?_append]
  intro f r t heq
  rcases List.append_eq_append_iff.mp heq with ⟨c, rfl, hrest⟩ | ⟨c, rfl, hrest⟩
  · exact hbehind c r t hrest
  · cases c with
    | nil =>
      have hsplit := hbehind [] r t (by simpa using hrest.symm)
      simpa using hsplit
    | cons x c =>
      -- an element before the removed one
      obtain ⟨rfl, rfl⟩ := List.cons.inj hrest
      have hmem : r ∈ (f ++ r :: c) ++ rest := by simp
      obtain ⟨hp, hn⟩ := h f r (c ++ e :: rest) (by simp)
      have hhead : rest.head? ≠ some r := fun hh =>
        List.disjoint_of_nodup_append hnodup (by simp) (List.mem_of_head? hh)
      rw [hprev r hmem, hnext r hmem, if_neg hhead, hp, hn]
      refine ⟨rfl, ?_⟩
      cases c with
      | nil => simp
      | cons y c =>
        rw [if_neg (getLast?_ne_of_nodup hnodup.of_append_left (List.cons_ne_nil _ _))]
        rfl

end Chain

/-! ### Readers -/

/-- A reader of the list has read `read`, the last element of which it remembers, and not `rest`. -/
structure Reads (refs : List R) (pos : Option R) (read rest : List R) : Prop where
  refs_eq : refs = read ++ rest
  pos_eq : pos = read.getLast?

section Reads

variable {prev next : R → Option R} {refs read rest front tail : List R} {pos : Option R} {e r : R}

/-- What a reader finds next: the first element, or the successor of the element it remembers. -/
theorem Reads.succ_eq (h : Reads refs pos read rest) (hchain : Chain prev next refs) :
    pos.elim refs.head? next = rest.head? := by
  obtain ⟨rfl, rfl⟩ := h
  rcases read.eq_nil_or_concat with rfl | ⟨init, r, rfl⟩
  · rfl
  · rw [List.concat_eq_append, List.getLast?_concat, Option.elim_some]
    exact (hchain init r rest (by simp)).2

theorem Reads.advance (h : Reads refs pos read (r :: rest)) :
    Reads refs (some r) (read ++ [r]) rest := by
  refine ⟨?_, ?_⟩
  · rw [h.refs_eq, List.append_assoc]
    rfl
  · rw [List.getLast?_concat]

theorem Reads.snoc (h : Reads refs pos read rest) (e : R) :
    Reads (refs ++ [e]) pos read (rest ++ [e]) := by
  refine ⟨?_, h.pos_eq⟩
  rw [h.refs_eq, List.append_assoc]

/-- An element is removed. The reader that remembers it goes back to the predecessor. -/
theorem Reads.remove [DecidableEq R] (h : Reads (front ++ e :: tail) pos read rest)
    (hnodup : (front ++ e :: tail).Nodup) :
    Reads (front ++ tail) (if pos = some e then front.getLast? else pos) (read.erase e)
      (rest.erase e) := by
  have hfront : e ∉ front := fun hmem =>
    List.disjoint_of_nodup_append hnodup hmem List.mem_cons_self
  have herase : front ++ tail = (front ++ e :: tail).erase e := by
    rw [List.erase_append_right _ hfront, List.erase_cons_head]
  by_cases hread : e ∈ read
  · -- the element has been read, so `front` has been read
    have hrest : e ∉ rest := by
      have hnodup' := hnodup
      rw [h.refs_eq] at hnodup'
      exact List.disjoint_of_nodup_append hnodup' hread
    rw [List.erase_of_not_mem hrest]
    refine ⟨by rw [herase, h.refs_eq, List.erase_append_left _ hread], ?_⟩
    obtain ⟨a, b, rfl⟩ := List.append_of_mem hread
    have ha : e ∉ a := by
      have hnodup' := hnodup
      rw [h.refs_eq, List.append_assoc] at hnodup'
      exact fun hmem => List.disjoint_of_nodup_append hnodup' hmem (by simp)
    obtain rfl : front = a := by
      have hrefs := h.refs_eq
      rw [List.append_assoc, List.cons_append] at hrefs
      have htail : e ∉ tail := (List.nodup_cons.mp hnodup.of_append_right).1
      exact ((List.append_cons_inj_of_notMem hfront htail).mp hrefs).1
    rw [List.erase_append_right _ ha, List.erase_cons_head, h.pos_eq]
    have hnodup' := hnodup
    rw [h.refs_eq] at hnodup'
    cases b with
    | nil => simp
    | cons x b =>
      rw [if_neg (getLast?_ne_of_nodup hnodup'.of_append_left (List.cons_ne_nil _ _))]
      simp [List.getLast?_append]
  · have hpos : pos ≠ some e := fun heq => hread (List.mem_of_getLast? (h.pos_eq.symm.trans heq))
    rw [if_neg hpos, List.erase_of_not_mem hread]
    exact ⟨by rw [herase, h.refs_eq, List.erase_append_right _ hread], h.pos_eq⟩

end Reads

/-! ### All that was read -/

/-- A reader and all that it has read, in a list of increasing elements: the part of it that is still
in the list comes first in the list. -/
structure Tracks [LinearOrder R] (refs out : List R) (pos : Option R) : Prop where
  increasing : out.Pairwise (· < ·)
  ahead : ∀ o ∈ out, ∀ r ∈ refs, r ∉ out → o < r
  reads : Reads refs pos (out.filter (· ∈ refs)) (refs.filter (· ∉ out))

section Tracks

variable [LinearOrder R] {refs out rest front tail : List R} {pos : Option R} {e r : R}

/-- A new reader has read nothing. -/
theorem tracks_nil (refs : List R) : Tracks refs [] none := by
  refine ⟨.nil, nofun, ?_, rfl⟩
  simp

/-- A new element is added at the end. -/
theorem Tracks.snoc (h : Tracks refs out pos) (hout : ∀ o ∈ out, o < e) :
    Tracks (refs ++ [e]) out pos := by
  have hnew : e ∉ out := fun hmem => lt_irrefl e (hout e hmem)
  refine ⟨h.increasing, fun o ho r hr hnot => ?_, ?_⟩
  · rcases List.mem_append.mp hr with hr | hr
    · exact h.ahead o ho r hr hnot
    · rw [List.mem_singleton.mp hr]
      exact hout o ho
  · have hread : out.filter (· ∈ refs ++ [e]) = out.filter (· ∈ refs) := by
      refine List.filter_congr fun o ho => ?_
      have hne : o ≠ e := fun heq => hnew (heq ▸ ho)
      simp [hne]
    rw [hread, List.filter_append, List.filter_singleton, decide_eq_true hnew]
    exact h.reads.snoc e

/-- An element is removed. -/
theorem Tracks.remove (h : Tracks (front ++ e :: tail) out pos)
    (hnodup : (front ++ e :: tail).Nodup) :
    Tracks (front ++ tail) out (if pos = some e then front.getLast? else pos) := by
  have hmem : ∀ r, r ∈ front ++ tail ↔ r ∈ front ++ e :: tail ∧ r ≠ e := by
    intro r
    have hgone : e ∉ front ++ tail := (List.nodup_middle.mp hnodup |> List.nodup_cons.mp).1
    constructor
    · intro hr
      refine ⟨?_, fun heq => hgone (heq ▸ hr)⟩
      rcases List.mem_append.mp hr with hr | hr
      · exact List.mem_append_left _ hr
      · exact List.mem_append_right _ (List.mem_cons_of_mem _ hr)
    · rintro ⟨hr, hne⟩
      simpa [hne] using hr
  have hreads := h.reads.remove hnodup
  refine ⟨h.increasing, fun o ho r hr => h.ahead o ho r ((hmem r).mp hr).1, ?_⟩
  have hread : out.filter (· ∈ front ++ tail) = (out.filter (· ∈ front ++ e :: tail)).erase e := by
    rw [List.Nodup.erase_eq_filter (h.increasing.imp ne_of_lt |>.filter _), List.filter_filter]
    refine List.filter_congr fun o _ => ?_
    rw [Bool.eq_iff_iff]
    simp only [decide_eq_true_eq, hmem, Bool.and_eq_true, bne_iff_ne]
    exact and_comm
  have hrest : (front ++ tail).filter (· ∉ out) = ((front ++ e :: tail).filter (· ∉ out)).erase e := by
    have herase : front ++ tail = (front ++ e :: tail).filter (· != e) := by
      rw [← List.Nodup.erase_eq_filter hnodup, List.erase_append_right, List.erase_cons_head]
      exact fun hin => List.disjoint_of_nodup_append hnodup hin List.mem_cons_self
    rw [List.Nodup.erase_eq_filter (hnodup.filter _), herase, List.filter_filter,
      List.filter_filter]
    exact List.filter_congr fun r _ => Bool.and_comm _ _
  rw [hread, hrest]
  exact hreads

/-- The next element is read. -/
theorem Tracks.output (h : Tracks refs out pos) (hsorted : refs.Pairwise (· < ·))
    (hrest : refs.filter (· ∉ out) = r :: rest) : Tracks refs (out ++ [r]) (some r) := by
  have hr : r ∈ refs ∧ r ∉ out := by
    have hmem : r ∈ refs.filter (· ∉ out) := hrest ▸ List.mem_cons_self
    simpa using hmem
  have hsorted' : (r :: rest).Pairwise (· < ·) := hrest ▸ hsorted.filter _
  have hleft : refs.filter (· ∉ out ++ [r]) = rest := by
    have hsplit : refs.filter (· ∉ out ++ [r]) = (refs.filter (· ∉ out)).filter (· ≠ r) := by
      rw [List.filter_filter]
      refine List.filter_congr fun x _ => ?_
      simp [and_comm]
    rw [hsplit, hrest, List.filter_cons_of_neg (by simp), List.filter_eq_self]
    intro x hx
    exact decide_eq_true (ne_of_gt (List.rel_of_pairwise_cons hsorted' hx))
  refine ⟨?_, fun o ho x hx hnot => ?_, ?_⟩
  · rw [List.pairwise_append]
    refine ⟨h.increasing, List.pairwise_singleton _ _, fun o ho x hx => ?_⟩
    rw [List.mem_singleton.mp hx]
    exact h.ahead o ho r hr.1 hr.2
  · have hx' : x ∈ rest := by
      rw [← hleft]
      exact List.mem_filter.mpr ⟨hx, decide_eq_true hnot⟩
    rcases List.mem_append.mp ho with ho | ho
    · exact h.ahead o ho x hx fun hin => hnot (List.mem_append_left _ hin)
    · rw [List.mem_singleton.mp ho]
      exact List.rel_of_pairwise_cons hsorted' hx'
  · have hreads := h.reads
    rw [hrest] at hreads
    rw [hleft, List.filter_append, List.filter_singleton, decide_eq_true hr.1]
    exact hreads.advance

/-- When nothing is left, all elements of the list have been read. -/
theorem Tracks.subset_of_nil (h : refs.filter (· ∉ out) = []) : refs ⊆ out := by
  intro r hr
  by_contra hnot
  exact List.not_mem_nil (h ▸ List.mem_filter.mpr ⟨hr, decide_eq_true hnot⟩)

end Tracks

end LinkedChain
