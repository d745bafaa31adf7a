import Lox.Program.Bracketed
import Mathlib.Data.List.TakeWhile

/-!
Words in nested parentheses. The text of such a list is read in one way only (`Nested.text_injective`):
a word ends where a space or a parenthesis stands, and a list where its parenthesis is closed.
-/

namespace Lox

/-- A word, or a list of such things. -/
inductive Nested where
  | word (w : String)
  | list (parts : List Nested)

namespace Nested

/-! ### Texts -/

mutual

/-- The text: lists in parentheses, with single spaces between what stands in them. -/
def text : Nested → List Char
  | .word w => w.toList
  | .list [] => ['(', ')']
  | .list (part :: rest) => '(' :: (part.text ++ (textEach rest ++ [')']))

/-- The texts, with a space in front of each. -/
def textEach : List Nested → List Char
  | [] => []
  | part :: rest => ' ' :: (part.text ++ textEach rest)

end

/-- The characters that are no part of a word. -/
def delimiters : List Char := [' ', '(', ')']

/-- The text is a word: it is not empty, and nothing in it ends a word. -/
def IsWord (w : String) : Prop :=
  w.toList ≠ [] ∧ ∀ c ∈ w.toList, c ∉ delimiters

-- the characters of the word are looked at, and not all characters that there are
instance (w : String) : Decidable (IsWord w) :=
  @instDecidableAnd _ _ inferInstance (List.decidableBAll (· ∉ delimiters) w.toList)

mutual

/-- The words are words. -/
def Worded : Nested → Prop
  | .word w => IsWord w
  | .list parts => WordedEach parts

/-- The words in all of them are words. -/
def WordedEach : List Nested → Prop
  | [] => True
  | part :: rest => part.Worded ∧ WordedEach rest

end

instance (w : String) : Decidable (Worded (.word w)) :=
  inferInstanceAs (Decidable (IsWord w))

/-! ### Reading a text -/

/-- A word ends before this text. -/
def Ends (rest : List Char) : Prop :=
  ∀ c ∈ rest.head?, c ∈ delimiters

theorem ends_nil : Ends [] := nofun

theorem ends_space (rest : List Char) : Ends (' ' :: rest) := by
  rintro c ⟨⟩
  decide

theorem ends_close (rest : List Char) : Ends (')' :: rest) := by
  rintro c ⟨⟩
  decide

theorem ends_textEach (parts : List Nested) (rest : List Char) :
    Ends (textEach parts ++ ')' :: rest) := by
  cases parts with
  | nil => exact ends_close rest
  | cons part parts => exact ends_space _

section

variable {w w' : String} {rest rest' : List Char}

/-- A word is what stands before the first space or parenthesis. -/
theorem takeWhile_word (hw : IsWord w) (hrest : Ends rest) :
    (w.toList ++ rest).takeWhile (· ∉ delimiters) = w.toList := by
  rw [List.takeWhile_append_of_pos fun c hc => decide_eq_true (hw.2 c hc)]
  cases rest with
  | nil => simp
  | cons c rest =>
    rw [List.takeWhile_cons_of_neg (by simpa using hrest c rfl), List.append_nil]

/-- A text starts with one word only. -/
theorem word_unique (hw : IsWord w) (hw' : IsWord w') (hrest : Ends rest) (hrest' : Ends rest')
    (h : w.toList ++ rest = w'.toList ++ rest') : w = w' ∧ rest = rest' := by
  have hword : w.toList = w'.toList := by
    rw [← takeWhile_word hw hrest, h, takeWhile_word hw' hrest']
  rw [hword] at h
  exact ⟨String.toList_inj.1 hword, List.append_cancel_left h⟩

/-- A word does not start with a parenthesis. -/
theorem word_ne_cons {c : Char} {cs : List Char} (hw : IsWord w) (hc : c ∈ delimiters) :
    w.toList ++ rest ≠ c :: cs := by
  obtain ⟨d, ds, hds⟩ := List.exists_cons_of_ne_nil hw.1
  rw [hds]
  intro h
  obtain ⟨rfl, -⟩ := List.cons.inj h
  exact hw.2 d (hds ▸ List.mem_cons_self) hc

end

/-- The text of a list goes on behind its parenthesis. -/
theorem text_list (part : Nested) (parts : List Nested) (rest : List Char) :
    (list (part :: parts)).text ++ rest = '(' :: (part.text ++ (textEach parts ++ ')' :: rest)) := by
  simp [text]

/-- No text starts with a closing parenthesis. -/
theorem text_ne_close : ∀ {part : Nested}, part.Worded → ∀ {rest cs : List Char},
    part.text ++ rest ≠ ')' :: cs
  | .word _, hpart, _, _ => word_ne_cons hpart (by decide)
  | .list [], _, _, _ => fun h => absurd (List.cons.inj h).1 (by decide)
  | .list (_ :: _), _, _, _ => fun h => absurd (List.cons.inj h).1 (by decide)

mutual

/-- A text starts with one thing only, if what stands behind it does not go on with a word. -/
theorem text_unique : ∀ {part part' : Nested}, part.Worded → part'.Worded →
    ∀ {rest rest' : List Char}, Ends rest → Ends rest' →
    part.text ++ rest = part'.text ++ rest' → part = part' ∧ rest = rest'
  | .word w, .word w', hw, hw', rest, rest', hrest, hrest', h => by
    obtain ⟨rfl, hrests⟩ := word_unique hw hw' hrest hrest' h
    exact ⟨rfl, hrests⟩
  | .word w, .list [], hw, _, rest, rest', _, _, h => absurd h (word_ne_cons hw (by decide))
  | .word w, .list (_ :: _), hw, _, rest, rest', _, _, h => absurd h (word_ne_cons hw (by decide))
  | .list [], .word w', _, hw', rest, rest', _, _, h =>
    absurd h.symm (word_ne_cons hw' (by decide))
  | .list (_ :: _), .word w', _, hw', rest, rest', _, _, h =>
    absurd h.symm (word_ne_cons hw' (by decide))
  | .list [], .list [], _, _, rest, rest', _, _, h => by
    refine ⟨rfl, ?_⟩
    simpa [text] using h
  | .list [], .list (part' :: parts'), _, hparts', rest, rest', _, _, h => by
    rw [text_list] at h
    exact absurd (List.cons.inj h).2.symm (text_ne_close hparts'.1)
  | .list (part :: parts), .list [], hparts, _, rest, rest', _, _, h => by
    rw [text_list] at h
    exact absurd (List.cons.inj h).2 (text_ne_close hparts.1)
  | .list (part :: parts), .list (part' :: parts'), hparts, hparts', rest, rest', _, _, h => by
    rw [text_list, text_list] at h
    obtain ⟨rfl, hrests⟩ := text_unique hparts.1 hparts'.1 (ends_textEach _ _) (ends_textEach _ _)
      (List.cons.inj h).2
    obtain ⟨rfl, hend⟩ := textEach_unique hparts.2 hparts'.2 hrests
    exact ⟨rfl, hend⟩

/-- What stands up to a closing parenthesis is one list only. -/
theorem textEach_unique : ∀ {parts parts' : List Nested}, WordedEach parts → WordedEach parts' →
    ∀ {rest rest' : List Char},
    textEach parts ++ ')' :: rest = textEach parts' ++ ')' :: rest' → parts = parts' ∧ rest = rest'
  | [], [], _, _, rest, rest', h => ⟨rfl, (List.cons.inj h).2⟩
  | [], _ :: _, _, _, rest, rest', h => absurd (List.cons.inj h).1 (by decide)
  | _ :: _, [], _, _, rest, rest', h => absurd (List.cons.inj h).1 (by decide)
  | part :: parts, part' :: parts', hparts, hparts', rest, rest', h => by
    rw [textEach, textEach, List.cons_append, List.cons_append, List.append_assoc,
      List.append_assoc] at h
    obtain ⟨rfl, hrests⟩ := text_unique hparts.1 hparts'.1 (ends_textEach _ _) (ends_textEach _ _)
      (List.cons.inj h).2
    obtain ⟨rfl, hend⟩ := textEach_unique hparts.2 hparts'.2 hrests
    exact ⟨rfl, hend⟩

end

/-- Different nested lists of words have different texts. -/
theorem text_injective {part part' : Nested} (hpart : part.Worded) (hpart' : part'.Worded)
    (h : part.text = part'.text) : part = part' :=
  (text_unique hpart hpart' ends_nil ends_nil (congrArg (· ++ []) h)).1

end Nested

end Lox
