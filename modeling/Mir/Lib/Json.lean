import Mathlib

/-!
# JSON texts

Values made of `null`, integers, strings, arrays and objects, and their texts. How strings and integers
are written and read is left open (`Leaves`); arrays and objects are written without white space, and
read with white space between all parts.

A text is read together with what follows it, up to there (`Reads`). A list of texts that are read so is
read one by one, so whoever reads back the strings and integers of a value reads back the value:
`Leaves.parse_write`. The fuel of the parser is the length of the text.
-/

namespace Json

/-- A text, as its bytes. -/
abbrev Text := List UInt8

/-- Values. -/
inductive Value
  | null
  | int (n : ℤ)
  | string (s : Text)
  | array (items : List Value)
  | object (members : List (Text × Value))

/-- How strings, after their opening quotes, and integers are written and read. -/
structure Leaves where
  string : Text → Text
  readString : Text → Option (Text × Text)
  int : ℤ → Text
  readInt : Text → Option (ℤ × Text)

/-! ### Writing -/

/-- Texts with commas between them. -/
def separated : List Text → Text
  | [] => []
  | [text] => text
  | text :: texts => text ++ 44 :: separated texts

/-- The text of a value. -/
def Leaves.write (L : Leaves) : Value → Text
  | .null => [110, 117, 108, 108]
  | .int n => L.int n
  | .string s => 34 :: L.string s
  | .array items => 91 :: separated (items.map L.write) ++ [93]
  | .object members =>
    123 :: separated (members.map fun m => 34 :: L.string m.1 ++ 58 :: L.write m.2) ++ [125]
decreasing_by
  · decreasing_tactic
  · have hlt := List.sizeOf_lt_of_mem ‹m ∈ members›
    cases m
    simp_all
    omega

/-! ### Reading -/

section Reading

variable {α : Type}

/-- Skip white space. -/
def skip (text : Text) : Text := text.dropWhile (· ∈ [9, 10, 13, 32])

/-- Read one byte, after white space. -/
def expect (c : UInt8) (text : Text) : Option Text :=
  match skip text with
  | [] => none
  | d :: text => if d = c then some text else none

/-- Read items up to a closing bracket; there is at least one. -/
def readItems (item : Text → Option (α × Text)) (last : UInt8) : ℕ → Text → Option (List α × Text)
  | 0, _ => none
  | n + 1, text => do
    let (a, text) ← item text
    match expect last text with
    | some text => some ([a], text)
    | none =>
      let (l, text) ← readItems item last n (← expect 44 text)
      some (a :: l, text)

/-- Read a list up to its closing bracket. -/
def readList (item : Text → Option (α × Text)) (last : UInt8) (n : ℕ) (text : Text) :
    Option (List α × Text) :=
  match expect last text with
  | some text => some ([], text)
  | none => readItems item last n text

/-- Read a member of an object. -/
def Leaves.readMember (L : Leaves) (value : Text → Option (Value × Text)) (text : Text) :
    Option ((Text × Value) × Text) := do
  let (name, text) ← L.readString (← expect 34 text)
  let (v, text) ← value (← expect 58 text)
  some ((name, v), text)

/-- Read a value. -/
def Leaves.read (L : Leaves) : ℕ → Text → Option (Value × Text)
  | 0, _ => none
  | n + 1, text =>
    match skip text with
    | [] => none
    | c :: text =>
      if c = 34 then (L.readString text).map fun r => (.string r.1, r.2)
      else if c = 91 then (readList (L.read n) 93 n text).map fun r => (.array r.1, r.2)
      else if c = 123 then
        (readList (L.readMember (L.read n)) 125 n text).map fun r => (.object r.1, r.2)
      else if c = 110 then
        if text.take 3 = [117, 108, 108] then some (.null, text.drop 3) else none
      else (L.readInt (c :: text)).map fun r => (.int r.1, r.2)

/-- Read a text that is the text of a value. -/
def Leaves.parse (L : Leaves) (text : Text) : Option Value := do
  let (v, rest) ← L.read text.length text
  if skip rest = [] then some v else none

/-! ### Reading what was written -/

/-- What may follow the text of a value: nothing, a comma or a closing bracket. -/
def Ends (rest : Text) : Prop := ∀ c ∈ rest.head?, c ∈ [44, 93, 125]

/-- The first byte is neither white space nor one that may follow a value. -/
def Starts (text : Text) : Prop := ∃ c t, text = c :: t ∧ c ∉ [9, 10, 13, 32, 44, 93, 125]

/-- The text is read up to its end. -/
def Reads (p : Text → Option (α × Text)) (text : Text) (a : α) : Prop :=
  ∀ rest, Ends rest → p (text ++ rest) = some (a, rest)

/-- A string is read back. -/
def Leaves.ReadsString (L : Leaves) (s : Text) : Prop :=
  ∀ rest, L.readString (L.string s ++ rest) = some (s, rest)

/-- The minus sign and the digits. -/
def numeric : List UInt8 := [45, 48, 49, 50, 51, 52, 53, 54, 55, 56, 57]

/-- Integers start with a minus sign or a digit, and are read back. -/
def Leaves.ReadsInts (L : Leaves) : Prop :=
  ∀ n, (∃ c t, L.int n = c :: t ∧ c ∈ numeric) ∧ Reads L.readInt (L.int n) n

/-- All strings of a value, and all names in it, are read back. -/
inductive Leaves.Valid (L : Leaves) : Value → Prop
  | null : L.Valid .null
  | int (n : ℤ) : L.Valid (.int n)
  | string {s : Text} (h : L.ReadsString s) : L.Valid (.string s)
  | array {items : List Value} (h : ∀ v ∈ items, L.Valid v) : L.Valid (.array items)
  | object {members : List (Text × Value)} (names : ∀ m ∈ members, L.ReadsString m.1)
      (h : ∀ m ∈ members, L.Valid m.2) : L.Valid (.object members)

variable {L : Leaves} {item : Text → Option (α × Text)} {last : UInt8} {texts : List Text}
  {l : List α} {text rest : Text}

theorem skip_cons {c : UInt8} (hc : c ∉ [9, 10, 13, 32]) (rest : Text) :
    skip (c :: rest) = c :: rest :=
  List.dropWhile_cons_of_neg (by simpa using hc)

theorem expect_cons {c d : UInt8} (hd : d ∉ [9, 10, 13, 32]) (rest : Text) :
    expect c (d :: rest) = if d = c then some rest else none := by
  rw [expect, skip_cons hd]

theorem expect_eq_none (h : Starts text) (hlast : last ∈ [93, 125]) (rest : Text) :
    expect last (text ++ rest) = none := by
  obtain ⟨c, t, rfl, hc⟩ := h
  rw [List.cons_append, expect_cons fun h => hc (List.mem_append_left [44, 93, 125] h)]
  refine if_neg ?_
  rintro rfl
  exact hc (List.mem_append_right [9, 10, 13, 32, 44] hlast)

theorem length_le_length_separated (h : text ∈ texts) : text.length ≤ (separated texts).length := by
  fun_induction separated texts with
  | case1 => cases h
  | case2 t => rw [List.mem_singleton.mp h]
  | case3 t ts _ ih =>
    rw [List.length_append, List.length_cons]
    rcases List.mem_cons.mp h with rfl | h
    · omega
    · have := ih h
      omega

theorem length_le_length_separated_succ (texts : List Text) :
    texts.length ≤ (separated texts).length + 1 := by
  fun_induction separated texts with
  | case1 => exact Nat.zero_le _
  | case2 t => simp
  | case3 t ts _ ih =>
    rw [List.length_append, List.length_cons, List.length_cons]
    omega

/-- **Items are read one by one.** -/
theorem readItems_separated (hlast : last ∈ [93, 125]) (hitems : List.Forall₂ (Reads item) texts l)
    (hne : texts ≠ []) {n : ℕ} (hn : texts.length ≤ n) (rest : Text) :
    readItems item last n (separated texts ++ last :: rest) = some (l, rest) := by
  induction hitems generalizing n with
  | nil => exact absurd rfl hne
  | @cons t a ts l ht hts ih =>
    obtain _ | n := n
    · cases hn
    have hlast' : last ≠ 44 ∧ last ∉ [9, 10, 13, 32] := by
      rcases List.mem_pair.mp hlast with rfl | rfl <;> decide
    cases hts with
    | nil =>
      have hends : Ends (last :: rest) := by
        rintro c ⟨⟩
        exact List.mem_cons_of_mem _ hlast
      simp [readItems, separated, ht _ hends, expect_cons hlast'.2]
    | @cons t' a' ts l' ht' hts =>
      have hends : Ends (44 :: (separated (t' :: ts) ++ last :: rest)) := by simp [Ends]
      have hcomma : (44 : UInt8) ∉ [9, 10, 13, 32] := by decide
      have hrest := ih (by simp) (Nat.le_of_succ_le_succ hn)
      simp [readItems, separated, ht _ hends, expect_cons hcomma, hlast'.1.symm, hrest]

/-- A list is read item by item. -/
theorem readList_separated (hlast : last ∈ [93, 125]) (hitems : List.Forall₂ (Reads item) texts l)
    (hstarts : ∀ text ∈ texts, Starts text) {n : ℕ} (hn : (separated texts).length < n) (rest : Text) :
    readList item last n (separated texts ++ last :: rest) = some (l, rest) := by
  cases hitems with
  | nil =>
    have hlast' : last ∉ [9, 10, 13, 32] := by
      rcases List.mem_pair.mp hlast with rfl | rfl <;> decide
    simp [readList, separated, expect_cons hlast']
  | @cons t a ts l ht hts =>
    have hstart : Starts (separated (t :: ts)) := by
      obtain ⟨c, t, rfl, hc⟩ := hstarts t List.mem_cons_self
      cases ts with
      | nil => exact ⟨c, t, rfl, hc⟩
      | cons => exact ⟨c, _, rfl, hc⟩
    have hlength := length_le_length_separated_succ (t :: ts)
    rw [readList, expect_eq_none hstart hlast]
    exact readItems_separated hlast (.cons ht hts) (List.cons_ne_nil _ _) (by omega) rest

/-- A member is read back if its name and its value are. -/
theorem Leaves.reads_readMember {value : Text → Option (Value × Text)} {name : Text} {v : Value}
    (hname : L.ReadsString name) (hv : Reads value text v) :
    Reads (L.readMember value) (34 :: L.string name ++ 58 :: text) (name, v) := by
  intro rest hrest
  have hquote : (34 : UInt8) ∉ [9, 10, 13, 32] := by decide
  have hcolon : (58 : UInt8) ∉ [9, 10, 13, 32] := by decide
  simp [readMember, expect_cons hquote, expect_cons hcolon, hname _, hv rest hrest]

/-- **A value is read back** if its strings are. -/
theorem Leaves.read_write (hint : L.ReadsInts) {v : Value} (hv : L.Valid v) :
    Starts (L.write v) ∧ ∀ n, (L.write v).length ≤ n → Reads (L.read n) (L.write v) v := by
  induction hv with
  | null =>
    rw [write]
    refine ⟨⟨110, _, rfl, by decide⟩, fun n hn rest _ => ?_⟩
    obtain _ | n := n
    · cases hn
    rfl
  | int m =>
    obtain ⟨⟨c, t, htext, hc⟩, hread⟩ := hint m
    have hne : ∀ c ∈ numeric, c ∉ [9, 10, 13, 32, 44, 93, 125, 34, 91, 123, 110] := by
      decide +kernel
    have hne := hne c hc
    rw [write]
    refine ⟨⟨c, t, htext, fun h => hne (List.mem_append_left [34, 91, 123, 110] h)⟩,
      fun n hn rest hrest => ?_⟩
    obtain _ | n := n
    · rw [htext] at hn
      cases hn
    have hskip : skip (c :: (t ++ rest)) = c :: (t ++ rest) := skip_cons (by simp_all) _
    have hread := hread rest hrest
    rw [htext, List.cons_append] at hread ⊢
    simp_all [read]
  | @string s h =>
    rw [write]
    refine ⟨⟨34, _, rfl, by decide⟩, fun n hn rest _ => ?_⟩
    obtain _ | n := n
    · cases hn
    have hskip : skip (34 :: (L.string s ++ rest)) = _ := skip_cons (by decide) _
    simp [read, hskip, h rest]
  | @array items h ih =>
    rw [write]
    refine ⟨⟨91, _, rfl, by decide⟩, fun n hn rest _ => ?_⟩
    obtain _ | n := n
    · cases hn
    have hlt : (separated (items.map L.write)).length < n := by
      simpa using hn
    have hitems : List.Forall₂ (Reads (L.read n)) (items.map L.write) items :=
      List.forall₂_map_left_iff.mpr (List.forall₂_same.mpr fun v hv => (ih v hv).2 n
        ((length_le_length_separated (List.mem_map_of_mem hv)).trans hlt.le))
    have hstarts := List.forall_mem_map.mpr fun v hv => (ih v hv).1
    have hread := readList_separated (by decide : (93 : UInt8) ∈ [93, 125]) hitems hstarts hlt rest
    have hskip : skip (91 :: (separated (items.map L.write) ++ 93 :: rest)) = _ :=
      skip_cons (by decide) _
    simp [read, hskip, hread]
  | @object members names h ih =>
    rw [write]
    refine ⟨⟨123, _, rfl, by decide⟩, fun n hn rest _ => ?_⟩
    obtain _ | n := n
    · cases hn
    set texts := members.map fun m => 34 :: L.string m.1 ++ 58 :: L.write m.2 with htexts
    have hlt : (separated texts).length < n := by
      simpa using hn
    have hitems : List.Forall₂ (Reads (L.readMember (L.read n))) texts members := by
      refine List.forall₂_map_left_iff.mpr (List.forall₂_same.mpr fun m hm => ?_)
      have hle : _ ≤ (separated texts).length :=
        length_le_length_separated (List.mem_map_of_mem hm)
      simp only [List.length_append, List.length_cons] at hle
      exact reads_readMember (names m hm) ((ih m hm).2 n (by omega))
    have hstarts : ∀ text ∈ texts, Starts text :=
      List.forall_mem_map.mpr fun m hm => ⟨34, _, rfl, by decide⟩
    have hread := readList_separated (by decide : (125 : UInt8) ∈ [93, 125]) hitems hstarts hlt rest
    have hskip : skip (123 :: (separated texts ++ 125 :: rest)) = _ := skip_cons (by decide) _
    simp [read, hskip, hread]

/-- **The text of a value is read as the value** if its strings are read back. -/
theorem Leaves.parse_write (hint : L.ReadsInts) {v : Value} (hv : L.Valid v) :
    L.parse (L.write v) = some v := by
  have hread := (L.read_write hint hv).2 _ le_rfl [] (by simp [Ends])
  rw [List.append_nil] at hread
  rw [parse, hread]
  rfl

end Reading

end Json
