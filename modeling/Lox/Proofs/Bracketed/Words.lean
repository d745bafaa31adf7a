import Lox.Proofs.Bracketed.Nested
import Lox.Proofs.Decimal.Numerals
import Lox.Proofs.Lexing.Longest
import Lox.Proofs.Tree.Relabel

/-!
The words that stand in the bracketed form of a program. The text of a token tells its kind
(`Token.ofSpelling_lexeme`), and the texts of numbers are no names and no keywords.
-/

namespace Lox

open Lexer Nested

/-- No lines and no numbers. -/
def Relabel.blank : Relabel := ⟨fun _ => 0, fun _ => 0⟩

/-! ### Tokens -/

/-- The text of the token is one of its kind. -/
def Token.Spelled (t : Token) : Prop :=
  Lexeme t.lexeme.toList t.kind

/-- The token has this kind, and a text of this kind. -/
def Token.Is (k : Kind) (t : Token) : Prop :=
  t.Spelled ∧ t.kind = k

/-- The kind of token that a text starts with. -/
def Kind.ofSpelling (w : String) : Kind :=
  match w.toList with
  | [] => .eof
  | c :: cs =>
    match (front c cs).1 with
    | .token kind => kind
    | .skipped | .fault _ => .eof

/-- A token with this text, on no line. -/
def Token.ofSpelling (w : String) : Token :=
  ⟨.ofSpelling w, w, 0⟩

theorem Kind.ofSpelling_eq {w : String} {kind : Kind} (h : Lexeme w.toList kind) :
    Kind.ofSpelling w = kind := by
  obtain ⟨c, cs, hw, hfront⟩ := front_of_lexeme h
  rw [Kind.ofSpelling, hw]
  dsimp only
  rw [hfront]

/-- The text of a token tells what it is. -/
theorem Token.ofSpelling_lexeme {t : Token} (h : t.Spelled) :
    Token.ofSpelling t.lexeme = t.relabel .blank := by
  rw [Token.ofSpelling, Kind.ofSpelling_eq h]
  rfl

/-- The only text of tokens of this kind, of those that the bracketed form leaves out. -/
def Kind.spelling? : Kind → Option String
  | .rightParen => some ")"
  | .kwThis => some "this"
  | .kwSuper => some "super"
  | .kwReturn => some "return"
  | _ => none

theorem eq_of_spelling? {w : List Char} {kind : Kind} {spelling : String} (h : Lexeme w kind)
    (hspelling : kind.spelling? = some spelling) : w = spelling.toList := by
  have hmarks : ∀ entry ∈ marks, ∀ s ∈ entry.2.spelling?, [entry.1] = s.toList := by decide
  have hoperators : ∀ entry ∈ operators,
      entry.2.1.spelling? = none ∧ entry.2.2.spelling? = none := by decide
  have hkeywords : ∀ entry ∈ keywords, ∀ s ∈ entry.2.spelling?, entry.1 = s := by decide
  cases h with
  | mark h => exact hmarks _ h _ hspelling
  | short h => exact absurd ((hoperators _ h).1.symm.trans hspelling) nofun
  | long h => exact absurd ((hoperators _ h).2.symm.trans hspelling) nofun
  | keyword h => exact congrArg String.toList (hkeywords _ h _ hspelling)
  | slash | whole | decimal | identifier | string => cases hspelling

/-- A token of such a kind, but for its line. -/
theorem Token.Is.relabel_eq {t : Token} {kind : Kind} {spelling : String} (h : t.Is kind)
    (hspelling : kind.spelling? = some spelling) : t.relabel .blank = ⟨kind, spelling, 0⟩ := by
  obtain ⟨ht, rfl⟩ := h
  rw [Token.relabel, String.toList_inj.1 (eq_of_spelling? ht hspelling)]
  rfl

/-! ### Words -/

theorem not_mem_delimiters {p : Char → Bool} (h : delimiters.all fun c => !p c) {c : Char}
    (hc : p c = true) : c ∉ delimiters := by
  intro hmem
  have hnot := List.all_eq_true.1 h c hmem
  rw [hc] at hnot
  cases hnot

/-- The kinds of tokens whose texts are no words. -/
def Kind.hasDelimiters : Kind → Bool
  | .leftParen | .rightParen | .string _ => true
  | _ => false

/-- The texts of all tokens but parentheses and strings are words. -/
theorem isWord_of_lexeme {w : String} {kind : Kind} (h : Lexeme w.toList kind)
    (hkind : kind.hasDelimiters = false) : IsWord w := by
  have hdigit {c : Char} (hc : c.isDigit = true) : c ∉ delimiters :=
    not_mem_delimiters (by decide) hc
  have hmarks : ∀ entry ∈ marks, entry.2.hasDelimiters = false → entry.1 ∉ delimiters := by decide
  have hoperators : ∀ entry ∈ operators, entry.1 ∉ delimiters := by decide
  have hkeywords : ∀ entry ∈ keywords, IsWord entry.1 := by decide
  have hslash : IsWord "/" := by decide
  unfold IsWord
  generalize w.toList = cs at h
  cases h with
  | mark h => simpa using hmarks _ h hkind
  | short h => simpa using hoperators _ h
  | long h => simpa [delimiters] using hoperators _ h
  | slash => exact hslash
  | whole h => exact ⟨List.cons_ne_nil _ _, fun c hc => hdigit (h c hc)⟩
  | decimal h _ hds =>
    refine ⟨List.cons_ne_nil _ _, fun c hc => ?_⟩
    rcases List.mem_append.1 hc with hc | hc
    · exact hdigit (h c hc)
    · rcases List.mem_cons.1 hc with rfl | hc
      · decide
      · exact hdigit (hds c hc)
  | keyword h => exact hkeywords _ h
  | identifier hc hcs =>
    refine ⟨List.cons_ne_nil _ _, List.forall_mem_cons.2 ⟨?_, fun d hd => ?_⟩⟩
    · exact not_mem_delimiters (by decide) hc
    · exact not_mem_delimiters (by decide) (hcs d hd)
  | string => cases hkind

theorem Token.Is.isWord {t : Token} {kind : Kind} (h : t.Is kind)
    (hkind : kind.hasDelimiters = false) : IsWord t.lexeme :=
  isWord_of_lexeme h.1 (h.2 ▸ hkind)

/-! ### Numbers -/

/-- What a text may start with that no name and no keyword starts with. -/
def startsNumber (c : Char) : Bool :=
  c.isDigit || c = '.' || c = '-'

/-- The text of a finite double. -/
theorem chars_render {x : Float} (hx : Decimal.IsFinite x) :
    (Decimal.pointed.render x).toList ≠ []
      ∧ ∀ c ∈ (Decimal.pointed.render x).toList, startsNumber c = true := by
  obtain ⟨negative, m, e, hx⟩ := hx
  obtain ⟨body, htext, hnumeral, -⟩ := Decimal.pointed_render hx
  rw [htext]
  refine ⟨List.append_ne_nil_of_right_ne_nil _ hnumeral.1, fun c hc => ?_⟩
  rcases List.mem_append.1 hc with hc | hc
  · obtain rfl : c = '-' := by
      cases negative
      · cases hc
      · exact List.mem_singleton.1 hc
    rfl
  · rcases hnumeral.2 c hc with hc | rfl
    · rw [startsNumber, hc]
      rfl
    · rfl

theorem isWord_render {x : Float} (hx : Decimal.IsFinite x) :
    IsWord (Decimal.pointed.render x) :=
  ⟨(chars_render hx).1, fun c hc => not_mem_delimiters (by decide) ((chars_render hx).2 c hc)⟩

/-- The kinds that tokens have whose texts start like a number. -/
def Kind.isNumeric : Kind → Bool
  | .number _ | .dot | .minus => true
  | _ => false

/-- A number does not read as a name or a keyword. -/
theorem isNumeric_render {x : Float} (hx : Decimal.IsFinite x) :
    (Kind.ofSpelling (Decimal.pointed.render x)).isNumeric = true := by
  obtain ⟨hne, hchars⟩ := chars_render hx
  obtain ⟨c, cs, hcs⟩ := List.exists_cons_of_ne_nil hne
  have hc := hchars c (hcs ▸ List.mem_cons_self)
  rw [Kind.ofSpelling, hcs]
  dsimp only
  simp only [startsNumber, Bool.or_eq_true, decide_eq_true_eq] at hc
  obtain (hc | rfl) | rfl := hc
  · rw [(Starts.digit hc).front_eq]
    rfl
  · rfl
  · rfl

end Lox
