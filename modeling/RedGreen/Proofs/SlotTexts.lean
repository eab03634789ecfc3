import RedGreen.Proofs.Reports
import RedGreen.Proofs.Texts

set_option autoImplicit false

/-! # The texts of slots

The text of a slot is the identity of its query and, in parentheses, the text of its key. An identity is any
string, so the text may have many parentheses, and nothing marks the one where the key begins. Still there
is one way to read it (`Node.text_injective`). The text of a key can be read back (`Key.text_injective`), and
it never ends in a parenthesis followed by the text of a key (`Key.text_ne_append`): numerals have no
parenthesis, and where a string ends the text of a key, it has been opened by a quote for which there is no
room. So two slots of a system have different texts, and a text that names a slot names it for good
(`World.InDirectory.eq_of_nameOf_eq`). -/

namespace RedGreen

open Text

/-! ## Keys -/

namespace Key

variable {k l : Key}

@[simp] theorem toList_text_unit : unit.text.toList = ['(', ')'] := rfl

@[simp] theorem toList_text_int (n : Int) : (int n).text.toList = (Int.repr n).toList := rfl

@[simp] theorem toList_text_str (s : String) :
    (str s).text.toList = '"' :: (s.toList.flatMap quoteChar ++ ['"']) := by
  simp [text, quote, quoteChars]

@[simp] theorem toList_text_pair (n : Int) (s : String) : (pair n s).text.toList =
    '(' :: ((Int.repr n).toList ++ [',', ' ']) ++ '"' :: (s.toList.flatMap quoteChar ++ ['"', ')']) := by
  simp [text, quote, quoteChars]

@[simp] theorem toList_text_list (items : List Int) : (list items).text.toList =
    '[' :: ([',', ' '].intercalate (items.map fun n => (Int.repr n).toList) ++ [']']) := by
  simp [text, bracketed, Function.comp_def]

/-- The type of the key that a text is of. -/
def typeOf : List Char → KeyType
  | '(' :: ')' :: _ => .unit
  | '(' :: _ => .pair
  | '"' :: _ => .str
  | '[' :: _ => .list
  | _ => .int

theorem typeOf_text (k : Key) : typeOf k.text.toList = k.type := by
  have hnumeral (n : Int) : ∃ c rest, (Int.repr n).toList = c :: rest ∧ IsNumeric c := by
    obtain ⟨c, rest, hrepr⟩ := List.exists_cons_of_ne_nil (repr_ne_nil n)
    exact ⟨c, rest, hrepr, isNumeric_of_mem_repr (hrepr ▸ List.mem_cons_self)⟩
  cases k with
  | unit | str | list => simp [typeOf, type]
  | int n =>
    obtain ⟨c, rest, hrepr, hc⟩ := hnumeral n
    rw [toList_text_int, hrepr]
    unfold typeOf
    split <;> simp_all [IsNumeric, type]
  | pair n s =>
    obtain ⟨c, rest, hrepr, hc⟩ := hnumeral n
    rw [toList_text_pair, hrepr]
    unfold typeOf
    split <;> simp_all [IsNumeric, type]

theorem comma_not_mem_repr (n : Int) : ',' ∉ (Int.repr n).toList := not_mem_repr (by simp [IsNumeric])

theorem paren_not_mem_repr (n : Int) : '(' ∉ (Int.repr n).toList := not_mem_repr (by simp [IsNumeric])

theorem quote_not_mem_repr (n : Int) : '"' ∉ (Int.repr n).toList := not_mem_repr (by simp [IsNumeric])

/-- No two keys have the same text. -/
theorem text_injective : Function.Injective text := by
  intro k l h
  have hchars := congrArg String.toList h
  have htype : k.type = l.type := by rw [← typeOf_text, hchars, typeOf_text]
  cases k with
  | unit => cases l <;> cases htype; rfl
  | int n =>
    cases l <;> cases htype
    exact congrArg int (Int.repr_injective h)
  | str s =>
    cases l <;> cases htype
    exact congrArg str (quote_injective h)
  | pair n s =>
    cases l <;> cases htype
    rename_i m t
    have hparts : (Int.repr n).toList ++ ',' :: ' ' :: '"' :: (s.toList.flatMap quoteChar ++ ['"', ')']) =
        (Int.repr m).toList ++ ',' :: ' ' :: '"' :: (t.toList.flatMap quoteChar ++ ['"', ')']) := by
      simpa using hchars
    obtain ⟨hrepr, hrest⟩ := append_cons_inj (comma_not_mem_repr n) (comma_not_mem_repr m) hparts
    have hquoted := (List.cons.inj (List.cons.inj hrest).2).2
    rw [Int.repr_injective (String.toList_inj.1 hrepr),
      String.toList_inj.1 (append_inj_of_quoted hquoted).1]
  | list items =>
    cases l <;> cases htype
    rename_i others
    have hword (items : List Int) : ∀ l ∈ items.map fun n => (Int.repr n).toList, ',' ∉ l ∧ l ≠ [] :=
      List.forall_mem_map.2 fun n _ => ⟨comma_not_mem_repr n, repr_ne_nil n⟩
    have hparts : [',', ' '].intercalate (items.map fun n => (Int.repr n).toList) =
        [',', ' '].intercalate (others.map fun n => (Int.repr n).toList) := by
      simpa using hchars
    have hinjective : Function.Injective fun n : Int => (Int.repr n).toList :=
      fun n m h => Int.repr_injective (String.toList_inj.1 h)
    rw [List.map_injective_iff.2 hinjective (intercalate_inj (hword items) (hword others) hparts)]

/-! ## Ends of keys -/

/-- A character that the text of a key may end with. -/
def Closes : KeyType → Char → Prop
  | .unit, c | .pair, c => c = ')'
  | .int, c => IsNumeric c
  | .str, c => c = '"'
  | .list, c => c = ']'

theorem exists_getLast?_text (k : Key) : ∃ c, k.text.toList.getLast? = some c ∧ Closes k.type c := by
  cases k with
  | int n =>
    have hlast := List.getLast?_eq_some_getLast (repr_ne_nil n)
    exact ⟨_, hlast, isNumeric_of_mem_repr (List.getLast_mem _)⟩
  | unit | str | pair | list => exact ⟨_, by simp [List.getLast?_append, List.getLast?_cons], rfl⟩

/-- The text of a key does not end in a parenthesis followed by the text of a key. -/
theorem text_ne_append (k l : Key) (before : List Char) :
    k.text.toList ≠ before ++ '(' :: l.text.toList := by
  intro h
  obtain ⟨c, hk, hl⟩ : ∃ c, Closes k.type c ∧ Closes l.type c := by
    obtain ⟨c, hc, hk⟩ := k.exists_getLast?_text
    obtain ⟨d, hd, hl⟩ := l.exists_getLast?_text
    rw [h, List.getLast?_append, List.getLast?_cons, hd] at hc
    cases hc
    exact ⟨d, hk, hl⟩
  cases k with
  | unit =>
    -- what follows the only opening parenthesis is no key
    rw [toList_text_unit] at h
    have hrest : l.text.toList = [')'] := by
      rcases List.cons_eq_append_iff.1 h with ⟨-, hrest⟩ | ⟨before, -, hrest⟩
      · exact (List.cons.inj hrest).2
      · exact absurd hrest (by cases before <;> simp)
    have htype := l.typeOf_text
    rw [hrest] at htype
    cases l <;> cases htype
    rename_i n
    exact not_mem_repr (n := n) (c := ')') (by simp [IsNumeric]) (hrest ▸ List.mem_singleton_self _)
  | int n => exact paren_not_mem_repr n (h ▸ List.mem_append_right _ List.mem_cons_self)
  | list items =>
    have hmem : '(' ∈ (list items).text.toList := h ▸ List.mem_append_right _ List.mem_cons_self
    have hitems : '(' ∈ [',', ' '].intercalate (items.map fun n => (Int.repr n).toList) := by
      simpa using hmem
    rcases mem_of_mem_intercalate hitems with heq | heq | ⟨numeral, hnumeral, hmem⟩
    · exact absurd heq (by decide)
    · exact absurd heq (by decide)
    · obtain ⟨n, -, rfl⟩ := List.mem_map.1 hnumeral
      exact paren_not_mem_repr n hmem
  | str s =>
    -- the other key ends with a quote as well, so it is opened by one
    obtain rfl : c = '"' := hk
    cases l with
    | str t =>
      have hends : ([] ++ '"' :: s.toList.flatMap quoteChar) ++ ['"'] =
          ((before ++ ['(']) ++ '"' :: t.toList.flatMap quoteChar) ++ ['"'] := by
        simpa using h
      have hopens := List.append_cancel_right hends
      exact absurd (eq_of_opens (by simp) (by simp) hopens) (by simp)
    | unit | int | pair | list => simp [Closes, type, IsNumeric] at hl
  | pair n s =>
    obtain rfl : c = ')' := hk
    cases l with
    | unit =>
      have hends : ('(' :: ((Int.repr n).toList ++ [',', ' ']) ++ '"' :: s.toList.flatMap quoteChar) ++
          ['"', ')'] = (before ++ ['(']) ++ ['(', ')'] := by
        simpa using h
      exact absurd (List.append_inj' hends rfl).2 (by decide)
    | pair m t =>
      have hends : ('(' :: ((Int.repr n).toList ++ [',', ' ']) ++ '"' :: s.toList.flatMap quoteChar) ++
          ['"', ')'] = ((before ++ '(' :: '(' :: ((Int.repr m).toList ++ [',', ' '])) ++
            '"' :: t.toList.flatMap quoteChar) ++ ['"', ')'] := by
        simpa using h
      have heq := eq_of_opens (by simp [quote_not_mem_repr]) (by simp [List.getLast?_cons])
        (List.append_cancel_right hends)
      -- there is no room for two parentheses before the quote
      have hmem : '(' ∈ (Int.repr n).toList ++ [',', ' '] := by
        cases before with
        | nil =>
          rw [(List.cons.inj heq).2]
          exact List.mem_cons_self
        | cons _ before =>
          rw [(List.cons.inj heq).2]
          simp
      simp [paren_not_mem_repr] at hmem
    | int | str | list => simp [Closes, type, IsNumeric] at hl

end Key

/-! ## Nodes -/

namespace Node

theorem toList_text (n : Node) :
    n.text.toList = (n.query.name.toList ++ '(' :: n.key.text.toList) ++ [')'] := by
  simp [text]

/-- No two nodes have the same text. -/
theorem text_injective : Function.Injective text := by
  have hsplit {m n : Node} {more : List Char} (hquery : n.query.name.toList = m.query.name.toList ++ more)
      (hkey : '(' :: m.key.text.toList = more ++ '(' :: n.key.text.toList) : m = n := by
    cases more with
    | nil =>
      obtain ⟨⟨name⟩, key⟩ := m
      obtain ⟨⟨name'⟩, key'⟩ := n
      obtain rfl : name' = name := String.toList_inj.1 (by simpa using hquery)
      obtain rfl : key = key' := Key.text_injective (String.toList_inj.1 (List.cons.inj hkey).2)
      rfl
    | cons c more => exact absurd (List.cons.inj hkey).2 (Key.text_ne_append _ _ _)
  intro m n h
  have hchars := congrArg String.toList h
  rw [toList_text, toList_text] at hchars
  rcases List.append_eq_append_iff.1 (List.append_cancel_right hchars) with
    ⟨more, hquery, hkey⟩ | ⟨more, hquery, hkey⟩
  · exact hsplit hquery hkey
  · exact (hsplit hquery hkey).symm

/-- No node has the text of a mere position. -/
theorem text_ne_position (n : Node) (i : SlotId) : n.text ≠ "#" ++ Nat.repr i := by
  intro h
  have hmem : ')' ∈ ("#" ++ Nat.repr i).toList := by
    rw [← h, toList_text]
    simp
  rw [String.toList_append, List.mem_append] at hmem
  rcases hmem with hmem | hmem
  · exact absurd hmem (by decide)
  · exact absurd (isNumeric_of_mem_natRepr hmem) (by simp [IsNumeric])

end Node

/-! ## Names in a system -/

theorem System.nameOf_cases (s : System) (i : SlotId) :
    (∃ n, s.node? i = some n ∧ s.nameOf i = n.text) ∨
      s.node? i = none ∧ s.nameOf i = "#" ++ Nat.repr i := by
  cases hnode : s.node? i with
  | some n => exact .inl ⟨n, rfl, nameOf_eq hnode⟩
  | none =>
    refine .inr ⟨rfl, ?_⟩
    have hslot : s.slots[i]? = none := Option.map_eq_none_iff.1 hnode
    rw [nameOf, describe?, hslot]
    rfl

namespace World

variable {p : Program} {w w' : World} {i j : SlotId}

/-- What is called by a name stays the only thing called by it: slots by their texts, and positions at
    which there is no slot by their numbers. -/
theorem InDirectory.eq_of_nameOf_eq (h : w'.InDirectory p) (hw : w.Continues w')
    (hname : w.nameOf i = w'.nameOf j) : i = j := by
  rcases w.nameOf_cases i with ⟨m, hm, hi⟩ | ⟨-, hi⟩ <;>
    rcases w'.nameOf_cases j with ⟨n, hn, hj⟩ | ⟨-, hj⟩ <;> rw [hi, hj] at hname
  · obtain rfl := Node.text_injective hname
    exact h.distinct (hw.node? hm) hn
  · exact absurd hname (m.text_ne_position j)
  · exact absurd hname.symm (n.text_ne_position i)
  · exact Nat.repr_injective (String.append_right_inj "#" |>.1 hname)

theorem InDirectory.nameOf_injective (h : w.InDirectory p) : Function.Injective w.nameOf :=
  fun _ _ hname => h.eq_of_nameOf_eq ⟨List.prefix_refl _, List.prefix_refl _⟩ hname

end World

end RedGreen
