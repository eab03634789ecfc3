import Mathlib
import RedGreen.Key

set_option autoImplicit false

/-! # Texts that can be read back

A quoted text tells where it ends and what was quoted (`append_inj_of_quoted`). For each character is
written in one of three ways (`Writes`), none of which begins another one, and none of which begins with a
quote. Between the quotes, a quote stands right after a backslash (`getLast?_of_quoted`), so the quote that
opens a quoted text cannot be mistaken for one inside it (`eq_of_opens`). A numeral consists of digits and
a sign, so a comma ends it, and a list of numerals can be read back as well (`intercalate_inj`). -/

namespace RedGreen.Text

/-- Where a mark stands for the first time in a list. -/
theorem append_cons_inj {α : Type} {mark : α} {l m r s : List α} (hl : mark ∉ l) (hm : mark ∉ m)
    (h : l ++ mark :: r = m ++ mark :: s) : l = m ∧ r = s := by
  rcases List.append_eq_append_iff.1 h with ⟨more, rfl, hmore⟩ | ⟨more, rfl, hmore⟩
  all_goals
    cases more with
    | nil => simpa [eq_comm] using hmore
    | cons a more =>
      obtain ⟨rfl, -⟩ := List.cons.inj hmore
      simp at hl hm

/-! ## Code points -/

theorem digitChar_injective : ∀ a < 16, ∀ b < 16, Nat.digitChar a = Nat.digitChar b → a = b := by
  decide

theorem hexDigits_of_lt {n : Nat} (h : n < 16) : hexDigits n = [Nat.digitChar n] :=
  Nat.toDigits_of_lt_base h

theorem hexDigits_of_le {n : Nat} (h : 16 ≤ n) :
    hexDigits n = hexDigits (n / 16) ++ [Nat.digitChar (n % 16)] :=
  Nat.toDigits_of_base_le (by decide) h

theorem hexDigits_ne_nil (n : Nat) : hexDigits n ≠ [] := Nat.toDigits_ne_nil

theorem hexDigits_injective {m n : Nat} (h : hexDigits m = hexDigits n) : m = n := by
  induction m using Nat.strongRecOn generalizing n with
  | ind m ih =>
    rcases Nat.lt_or_ge m 16 with hm | hm <;> rcases Nat.lt_or_ge n 16 with hn | hn
    · rw [hexDigits_of_lt hm, hexDigits_of_lt hn] at h
      exact digitChar_injective m hm n hn (List.singleton_inj.1 h)
    · rw [hexDigits_of_lt hm, hexDigits_of_le hn] at h
      have hparts : [] ++ [Nat.digitChar m] = hexDigits (n / 16) ++ [Nat.digitChar (n % 16)] := h
      exact absurd (List.append_inj' hparts rfl).1.symm (hexDigits_ne_nil _)
    · rw [hexDigits_of_le hm, hexDigits_of_lt hn] at h
      have hparts : hexDigits (m / 16) ++ [Nat.digitChar (m % 16)] = [] ++ [Nat.digitChar n] := h
      exact absurd (List.append_inj' hparts rfl).1 (hexDigits_ne_nil _)
    · rw [hexDigits_of_le hm, hexDigits_of_le hn] at h
      obtain ⟨hinit, hlast⟩ := List.append_inj' h rfl
      have hquotient : m / 16 = n / 16 := ih (m / 16) (by omega) hinit
      have hremainder : m % 16 = n % 16 :=
        digitChar_injective _ (by omega) _ (by omega) (List.singleton_inj.1 hlast)
      omega

theorem not_mem_hexDigits {c : Char} (hc : ∀ d, Nat.digitChar d ≠ c) (n : Nat) : c ∉ hexDigits n := by
  induction n using Nat.strongRecOn with
  | ind n ih =>
    rcases Nat.lt_or_ge n 16 with hn | hn
    · rw [hexDigits_of_lt hn]
      simpa using (hc n).symm
    · rw [hexDigits_of_le hn]
      simpa using ⟨ih (n / 16) (by omega), (hc (n % 16)).symm⟩

/-! ## Characters between quotes -/

/-- The character that a letter after a backslash stands for. -/
def shorthand : Char → Option Char
  | '"' => some '"'
  | '\\' => some '\\'
  | 'n' => some '\n'
  | 't' => some '\t'
  | 'r' => some '\r'
  | '0' => some '\x00'
  | _ => none

/-- How a character may be written between quotes. -/
inductive Writes (c : Char) : List Char → Prop
  | plain (quote : c ≠ '"') (backslash : c ≠ '\\') : Writes c [c]
  | short {letter : Char} (stands : shorthand letter = some c) : Writes c ['\\', letter]
  | coded : Writes c ('\\' :: 'u' :: '{' :: (hexDigits c.toNat ++ ['}']))

theorem writes_quoteChar (c : Char) : Writes c (quoteChar c) := by
  unfold quoteChar
  split_ifs with hquote hbackslash hnewline htab hreturn hnull
  · subst hquote
    exact .short rfl
  · subst hbackslash
    exact .short rfl
  · subst hnewline
    exact .short rfl
  · subst htab
    exact .short rfl
  · subst hreturn
    exact .short rfl
  · obtain rfl : c = '\x00' := Char.toNat_inj.1 hnull
    exact .short rfl
  · exact .coded
  · exact .plain hquote hbackslash

variable {c d : Char} {cs ds l m r s x y : List Char}

/-- No way to write a character begins a way to write another one. -/
theorem Writes.append_inj (h : Writes c l) (h' : Writes d m) (heq : l ++ r = m ++ s) :
    c = d ∧ r = s := by
  cases h with
  | plain quote backslash =>
    cases h' with
    | plain => simpa using heq
    | short | coded => exact absurd (List.cons.inj heq).1 backslash
  | @short letter stands =>
    cases h' with
    | plain quote backslash => exact absurd (List.cons.inj heq).1.symm backslash
    | short stands' =>
      obtain ⟨rfl, rfl⟩ : letter = _ ∧ r = s := by simpa using heq
      exact ⟨Option.some.inj (stands.symm.trans stands'), rfl⟩
    | coded =>
      obtain rfl : letter = 'u' := (List.cons.inj (List.cons.inj heq).2).1
      cases stands
  | coded =>
    cases h' with
    | plain quote backslash => exact absurd (List.cons.inj heq).1.symm backslash
    | @short letter stands =>
      obtain rfl : 'u' = letter := (List.cons.inj (List.cons.inj heq).2).1
      cases stands
    | coded =>
      have hbrace (n : Nat) : '}' ∉ hexDigits n :=
        not_mem_hexDigits (fun _ => Nat.digitChar_ne _ (by decide)) n
      have hdigits : hexDigits c.toNat ++ '}' :: r = hexDigits d.toNat ++ '}' :: s := by
        simpa using heq
      obtain ⟨hcode, hrest⟩ := append_cons_inj (hbrace _) (hbrace _) hdigits
      exact ⟨Char.toNat_inj.1 (hexDigits_injective hcode), hrest⟩

/-- No way to write a character begins with a quote. -/
theorem Writes.append_ne_quote (h : Writes c l) : l ++ r ≠ '"' :: s := by
  intro heq
  cases h with
  | plain quote => exact quote (List.cons.inj heq).1
  | short | coded => exact absurd (List.cons.inj heq).1 (by decide)

/-- In what is written for a character, a quote stands after a backslash only. -/
theorem Writes.eq_of_quote (h : Writes c l) (heq : l = x ++ '"' :: y) : x = ['\\'] := by
  cases h with
  | plain quote =>
    have hmem : '"' ∈ [c] := by simp [heq]
    exact absurd (List.mem_singleton.1 hmem).symm quote
  | @short letter stands =>
    rcases List.cons_eq_append_iff.1 heq with ⟨rfl, hquote⟩ | ⟨before, rfl, hletter⟩
    · exact absurd (List.cons.inj hquote).1 (by decide)
    · rcases List.cons_eq_append_iff.1 hletter with ⟨rfl, -⟩ | ⟨more, -, hnone⟩
      · rfl
      · exact absurd hnone (by simp)
  | coded =>
    have hmem : '"' ∈ '\\' :: 'u' :: '{' :: (hexDigits c.toNat ++ ['}']) := by simp [heq]
    have hnot : '"' ∉ hexDigits c.toNat :=
      not_mem_hexDigits (fun _ => Nat.digitChar_ne _ (by decide)) _
    simp [hnot] at hmem

/-! ## Quoted texts -/

/-- A quoted text tells where it ends, and what was quoted. -/
theorem append_inj_of_quoted (h : cs.flatMap quoteChar ++ '"' :: r = ds.flatMap quoteChar ++ '"' :: s) :
    cs = ds ∧ r = s := by
  induction cs generalizing ds with
  | nil =>
    cases ds with
    | nil => simpa using h
    | cons d ds =>
      rw [List.flatMap_cons, List.append_assoc] at h
      exact absurd h.symm (writes_quoteChar d).append_ne_quote
  | cons c cs ih =>
    rw [List.flatMap_cons, List.append_assoc] at h
    cases ds with
    | nil => exact absurd h (writes_quoteChar c).append_ne_quote
    | cons d ds =>
      rw [List.flatMap_cons, List.append_assoc] at h
      obtain ⟨rfl, hrest⟩ := (writes_quoteChar c).append_inj (writes_quoteChar d) h
      obtain ⟨rfl, hend⟩ := ih hrest
      exact ⟨rfl, hend⟩

theorem quote_injective {a b : String} (h : quote a = quote b) : a = b := by
  have hchars : quoteChars a.toList = quoteChars b.toList := String.ofList_injective h
  exact String.toList_inj.1 (append_inj_of_quoted (List.cons.inj hchars).2).1

/-- Between the quotes of a quoted text, a quote stands after a backslash. -/
theorem getLast?_of_quoted (h : cs.flatMap quoteChar = x ++ '"' :: y) : x.getLast? = some '\\' := by
  induction cs generalizing x with
  | nil => exact absurd h (by simp)
  | cons c cs ih =>
    rw [List.flatMap_cons] at h
    rcases List.append_eq_append_iff.1 h with ⟨more, rfl, hmore⟩ | ⟨more, hchar, hmore⟩
    · rw [List.getLast?_append, ih hmore]
      rfl
    · cases more with
      | nil => exact absurd (ih (x := []) hmore.symm) (by simp)
      | cons a more =>
        obtain ⟨rfl, -⟩ := List.cons.inj hmore
        rw [(writes_quoteChar c).eq_of_quote hchar]
        rfl

/-- A quote that is not after a backslash opens the quoted text. -/
theorem eq_of_opens (hl : '"' ∉ l) (hx : x.getLast? ≠ some '\\')
    (h : l ++ '"' :: cs.flatMap quoteChar = x ++ '"' :: y) : l = x := by
  rcases List.append_eq_append_iff.1 h with ⟨more, rfl, hmore⟩ | ⟨more, rfl, hmore⟩
  · cases more with
    | nil => simp
    | cons a more =>
      obtain ⟨rfl, hquoted⟩ := List.cons.inj hmore
      have hlast := getLast?_of_quoted hquoted
      rw [List.getLast?_append, List.getLast?_cons, hlast] at hx
      exact absurd rfl hx
  · cases more with
    | nil => simp
    | cons a more =>
      obtain ⟨rfl, -⟩ := List.cons.inj hmore
      simp at hl

/-! ## Numerals -/

/-- A character of a numeral. -/
def IsNumeric (c : Char) : Prop := c = '-' ∨ c.isDigit = true

theorem isNumeric_of_mem_natRepr {n : Nat} (h : c ∈ (Nat.repr n).toList) : IsNumeric c := by
  rw [Nat.repr_eq_ofList_toDigits, String.toList_ofList] at h
  exact .inr (Nat.isDigit_of_mem_toDigits (by decide) (by decide) h)

theorem isNumeric_of_mem_repr {n : Int} (h : c ∈ (Int.repr n).toList) : IsNumeric c := by
  rw [Int.repr_eq_if] at h
  split at h
  · exact isNumeric_of_mem_natRepr h
  · rw [String.toList_append, List.mem_append] at h
    rcases h with h | h
    · exact .inl (List.mem_singleton.1 h)
    · exact isNumeric_of_mem_natRepr h

theorem not_mem_repr {n : Int} (h : ¬IsNumeric c) : c ∉ (Int.repr n).toList :=
  fun hmem => h (isNumeric_of_mem_repr hmem)

theorem repr_ne_nil (n : Int) : (Int.repr n).toList ≠ [] := by
  rw [Int.repr_eq_if]
  split
  · rw [ne_eq, String.toList_eq_nil_iff]
    exact Nat.repr_ne_empty
  · simp

/-- The parts of a list stand between commas, and all but the first one after a blank. -/
theorem intercalate_cons_eq (w : List Char) (ws : List (List Char)) :
    [',', ' '].intercalate (w :: ws) = [','].intercalate (w :: ws.map (' ' :: ·)) := by
  induction ws generalizing w with
  | nil => simp
  | cons v ws ih =>
    rw [List.intercalate_cons_cons, ih, List.map_cons, List.intercalate_cons_cons,
      List.intercalate_cons_cons_left]
    simp

theorem mem_of_mem_intercalate {v : List (List Char)} (h : c ∈ [',', ' '].intercalate v) :
    c = ',' ∨ c = ' ' ∨ ∃ l ∈ v, c ∈ l := by
  induction v with
  | nil => simp at h
  | cons l v ih =>
    cases v with
    | nil => exact .inr (.inr ⟨l, List.mem_cons_self, by simpa using h⟩)
    | cons m v =>
      rw [List.intercalate_cons_cons, List.append_assoc, List.mem_append, List.mem_append] at h
      rcases h with h | h | h
      · exact .inr (.inr ⟨l, List.mem_cons_self, h⟩)
      · have hsep : c = ',' ∨ c = ' ' := by simpa using h
        exact hsep.imp_right .inl
      · exact (ih h).imp_right (.imp_right fun ⟨k, hk, hc⟩ => ⟨k, List.mem_cons_of_mem l hk, hc⟩)

/-- A list of texts can be read back if none of them is empty and none has a comma. -/
theorem intercalate_inj {v w : List (List Char)} (hv : ∀ l ∈ v, ',' ∉ l ∧ l ≠ [])
    (hw : ∀ l ∈ w, ',' ∉ l ∧ l ≠ []) (h : [',', ' '].intercalate v = [',', ' '].intercalate w) :
    v = w := by
  have hsplit (l : List Char) (v : List (List Char)) (hv : ∀ k ∈ l :: v, ',' ∉ k ∧ k ≠ []) :
      List.splitOn ',' ([',', ' '].intercalate (l :: v)) = l :: v.map (' ' :: ·) := by
    rw [intercalate_cons_eq]
    refine List.splitOn_intercalate ',' ?_ (by simp)
    simpa using ⟨(hv l List.mem_cons_self).1, fun k hk => (hv k (List.mem_cons_of_mem _ hk)).1⟩
  -- the first text would be empty
  have hne (l : List Char) (v : List (List Char)) (hl : l ≠ []) : [',', ' '].intercalate (l :: v) ≠ [] := by
    obtain ⟨c, l, rfl⟩ := List.exists_cons_of_ne_nil hl
    simp
  cases v with
  | nil =>
    cases w with
    | nil => rfl
    | cons m w => exact absurd h.symm (hne m w (hw m List.mem_cons_self).2)
  | cons l v =>
    cases w with
    | nil => exact absurd h (hne l v (hv l List.mem_cons_self).2)
    | cons m w =>
      have hparts := congrArg (List.splitOn ',') h
      rw [hsplit l v hv, hsplit m w hw] at hparts
      obtain ⟨rfl, hrest⟩ := List.cons.inj hparts
      rw [List.map_injective_iff.2 (List.cons_injective) hrest]

end RedGreen.Text
