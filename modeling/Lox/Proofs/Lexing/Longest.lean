import Lox.Token.Lexer
import Mathlib.Data.List.TakeWhile

/-!
Reading the longest piece. `Lexeme` and `Skippable` say which texts are tokens, of which kind, and
which are skipped, each text by itself. What `front` takes off a text is the longest beginning that is
one of these, and a fault stands for a text with no such beginning (`Longest.front`). So the items of a
text are those of a reading that is described by these texts alone (`lexes_iff`).
-/

namespace Lox

namespace Lexer

/-! ### The texts of tokens -/

/-- The texts that are tokens, and the kinds that they have. -/
inductive Lexeme : List Char → Kind → Prop where
  | mark {c : Char} {kind : Kind} (h : (c, kind) ∈ marks) : Lexeme [c] kind
  | short {c : Char} {short long : Kind} (h : (c, short, long) ∈ operators) : Lexeme [c] short
  | long {c : Char} {short long : Kind} (h : (c, short, long) ∈ operators) : Lexeme [c, '='] long
  | slash : Lexeme ['/'] .slash
  | whole {c : Char} {cs : List Char} (h : ∀ d ∈ c :: cs, d.isDigit) :
      Lexeme (c :: cs) (.number (Decimal.ofParts (c :: cs) [] 0))
  | decimal {c : Char} {cs ds : List Char} (h : ∀ d ∈ c :: cs, d.isDigit) (hne : ds ≠ [])
      (hds : ∀ d ∈ ds, d.isDigit) :
      Lexeme (c :: cs ++ '.' :: ds) (.number (Decimal.ofParts (c :: cs) ds 0))
  | keyword {word : String} {kind : Kind} (h : (word, kind) ∈ keywords) : Lexeme word.toList kind
  | identifier {c : Char} {cs : List Char} (hc : startsWord c) (hcs : ∀ d ∈ cs, continuesWord d)
      (h : String.ofList (c :: cs) ∉ keywords.map Prod.fst) : Lexeme (c :: cs) .identifier
  | string {cs : List Char} (h : '"' ∉ cs) :
      Lexeme ('"' :: cs ++ ['"']) (.string (String.ofList cs))

/-- The texts that only keep tokens apart. -/
inductive Skippable : List Char → Prop where
  | gap {c : Char} (h : c ∈ gaps) : Skippable [c]
  | comment {cs : List Char} (h : '\n' ∉ cs) : Skippable ('/' :: '/' :: cs)

/-- The text is a token or may be skipped. -/
inductive IsPiece : List Char → Piece → Prop where
  | skipped {w : List Char} (h : Skippable w) : IsPiece w .skipped
  | token {w : List Char} {kind : Kind} (h : Lexeme w kind) : IsPiece w (.token kind)

/-- The longest beginning of a text that is a token or may be skipped. -/
structure Longest (text w : List Char) (piece : Piece) : Prop where
  isPiece : IsPiece w piece
  isPrefix : w <+: text
  longest : ∀ w' piece', w' <+: text → IsPiece w' piece' → w'.length ≤ w.length

/-- The items of a text of which a part has been read already, and the rest is still to be read. The
lines are counted from the beginning of the whole text. -/
inductive Lexes : List Char → List Char → List Item → Prop where
  | done (before : List Char) : Lexes before [] [.token ⟨.eof, "", 1 + before.count '\n'⟩]
  | skip {before w rest : List Char} {items : List Item} (h : Longest (w ++ rest) w .skipped)
      (hrest : Lexes (before ++ w) rest items) : Lexes before (w ++ rest) items
  | token {before w rest : List Char} {kind : Kind} {items : List Item}
      (h : Longest (w ++ rest) w (.token kind)) (hrest : Lexes (before ++ w) rest items) :
      Lexes before (w ++ rest)
        (.token ⟨kind, String.ofList w, 1 + (before ++ w).count '\n'⟩ :: items)
  | unexpected {before rest : List Char} {c : Char} {items : List Item}
      (h : ∀ w piece, w <+: c :: rest → ¬ IsPiece w piece) (hc : c ≠ '"')
      (hrest : Lexes (before ++ [c]) rest items) :
      Lexes before (c :: rest)
        (.fault (1 + (before ++ [c]).count '\n') (.unexpectedCharacter c) :: items)
  | unterminated {before rest : List Char} {items : List Item}
      (h : ∀ w piece, w <+: '"' :: rest → ¬ IsPiece w piece)
      (hrest : Lexes (before ++ '"' :: rest) [] items) :
      Lexes before ('"' :: rest)
        (.fault (1 + (before ++ '"' :: rest).count '\n') .unterminatedString :: items)

/-! ### How pieces start -/

/-- How a text is read that starts with this character, for each class of characters. -/
inductive Starts (c : Char) : (List Char → Piece × Nat) → Prop where
  | mark {kind : Kind} (h : (c, kind) ∈ marks) : Starts c fun _ => (.token kind, 0)
  | operator {short long : Kind} (h : (c, short, long) ∈ operators) :
      Starts c (withEqual short long)
  | gap (h : c ∈ gaps) : Starts c fun _ => (.skipped, 0)
  | slash (h : c = '/') : Starts c afterSlash
  | quote (h : c = '"') : Starts c afterQuote
  | digit (h : c.isDigit) : Starts c (afterDigit c)
  | letter (h : startsWord c) : Starts c (afterLetter c)
  | other (hmark : marks.lookup c = none) (hoperator : operators.lookup c = none)
      (hgap : c ∉ gaps) (hslash : c ≠ '/') (hquote : c ≠ '"') (hdigit : ¬ c.isDigit)
      (hletter : ¬ startsWord c) : Starts c fun _ => (.fault (.unexpectedCharacter c), 0)

/-- A key that a table has stands in one of its entries. -/
theorem mem_of_lookup {α : Type} {table : List (Char × α)} {c : Char} {a : α}
    (h : table.lookup c = some a) : (c, a) ∈ table := by
  obtain ⟨l, l', hl, -⟩ := List.lookup_eq_some_iff.1 h
  simp [hl]

/-- Every character starts a piece in one of these ways. -/
theorem starts (c : Char) : Starts c (front c) := by
  have hfront : front c = fun cs => front c cs := rfl
  rw [hfront]
  unfold front
  cases hm : marks.lookup c with
  | some kind => exact .mark (mem_of_lookup hm)
  | none =>
    cases ho : operators.lookup c with
    | some kinds => exact .operator (mem_of_lookup ho)
    | none =>
      by_cases hgap : c ∈ gaps
      · simp only [if_pos hgap]
        exact .gap hgap
      by_cases hslash : c = '/'
      · simp only [if_neg hgap, if_pos hslash]
        exact .slash hslash
      by_cases hquote : c = '"'
      · simp only [if_neg hgap, if_neg hslash, if_pos hquote]
        exact .quote hquote
      by_cases hdigit : c.isDigit
      · simp only [if_neg hgap, if_neg hslash, if_neg hquote, if_pos hdigit]
        exact .digit hdigit
      by_cases hletter : startsWord c
      · simp only [if_neg hgap, if_neg hslash, if_neg hquote, if_neg hdigit, if_pos hletter]
        exact .letter hletter
      · simp only [if_neg hgap, if_neg hslash, if_neg hquote, if_neg hdigit, if_neg hletter]
        exact .other hm ho hgap hslash hquote hdigit hletter

/-- A character of a class that a table has nothing to do with is not in the table. -/
theorem lookup_eq_none {α : Type} {table : List (Char × α)} {p : Char → Bool}
    (h : ∀ entry ∈ table, p entry.1 = false) {c : Char} (hc : p c = true) :
    table.lookup c = none := by
  rw [List.lookup_eq_none_iff]
  intro entry hentry
  rw [bne_iff_ne]
  rintro rfl
  exact absurd (hc.symm.trans (h entry hentry)) (by decide)

theorem not_mem_gaps {p : Char → Bool} (h : gaps.all fun c => !p c) {c : Char} (hc : p c = true) :
    c ∉ gaps := by
  intro hmem
  have hnot := List.all_eq_true.1 h c hmem
  rw [hc] at hnot
  cases hnot

/-- A word starts with a letter of ASCII or with an underscore. -/
theorem cases_of_startsWord {c : Char} (h : startsWord c) :
    (65 ≤ c.toNat ∧ c.toNat ≤ 90) ∨ (97 ≤ c.toNat ∧ c.toNat ≤ 122) ∨ c = '_' := by
  have hcodes : (decide (c.val ≥ 65 ∧ c.val ≤ 90) || (c.val ≥ 97 && c.val ≤ 122) || c = '_') = true :=
    h
  simpa [UInt32.le_iff_toNat_le, or_assoc] using hcodes

theorem not_isDigit_of_startsWord {c : Char} (h : startsWord c) : ¬ c.isDigit := by
  intro hdigit
  simp only [Char.isDigit, Bool.and_eq_true, decide_eq_true_eq, UInt32.le_iff_toNat_le] at hdigit
  have hle : c.toNat ≤ 57 := hdigit.2
  rcases cases_of_startsWord h with h | h | rfl
  · omega
  · omega
  · exact absurd hle (by decide)

/-- No two of the classes have a character in common. -/
theorem Starts.front_eq {c : Char} {f : List Char → Piece × Nat} (h : Starts c f) :
    front c = f := by
  funext cs
  unfold front
  cases h with
  | mark h =>
    have hall : ∀ entry ∈ marks, marks.lookup entry.1 = some entry.2 := by decide
    rw [hall _ h]
  | operator h =>
    have hall : ∀ entry ∈ operators,
        marks.lookup entry.1 = none ∧ operators.lookup entry.1 = some entry.2 := by decide
    obtain ⟨hm, ho⟩ := hall _ h
    rw [hm, ho]
  | gap h =>
    have hgap : decide (c ∈ gaps) = true := decide_eq_true h
    rw [lookup_eq_none (p := (· ∈ gaps)) (by decide) hgap,
      lookup_eq_none (p := (· ∈ gaps)) (by decide) hgap]
    exact if_pos h
  | slash h =>
    subst h
    rfl
  | quote h =>
    subst h
    rfl
  | digit h =>
    have hgap : c ∉ gaps := not_mem_gaps (p := Char.isDigit) (by decide) h
    rw [lookup_eq_none (p := Char.isDigit) (by decide) h,
      lookup_eq_none (p := Char.isDigit) (by decide) h]
    simp only [if_neg hgap]
    rw [if_neg (by rintro rfl; cases h), if_neg (by rintro rfl; cases h), if_pos h]
  | letter h =>
    have hgap : c ∉ gaps := not_mem_gaps (p := startsWord) (by decide) h
    have hdigit := not_isDigit_of_startsWord h
    rw [lookup_eq_none (p := startsWord) (by decide) h,
      lookup_eq_none (p := startsWord) (by decide) h]
    simp only [if_neg hgap]
    rw [if_neg (by rintro rfl; cases h), if_neg (by rintro rfl; cases h), if_neg hdigit, if_pos h]
  | other hmark hoperator hgap hslash hquote hdigit hletter =>
    rw [hmark, hoperator]
    simp only [if_neg hgap, if_neg hslash, if_neg hquote, if_neg hdigit, if_neg hletter]

/-! ### What is taken is a piece -/

/-- The piece is a fault. -/
def Piece.isFault : Piece → Bool
  | .fault _ => true
  | _ => false

theorem take_length_takeWhile (p : Char → Bool) (cs : List Char) :
    cs.take (cs.takeWhile p).length = cs.takeWhile p :=
  (List.prefix_iff_eq_take.1 (List.takeWhile_prefix p)).symm

theorem drop_length_takeWhile (p : Char → Bool) (cs : List Char) :
    cs.drop (cs.takeWhile p).length = cs.dropWhile p := by
  conv =>
    lhs
    arg 2
    rw [← List.takeWhile_append_dropWhile (p := p) (l := cs)]
  rw [List.drop_left]

theorem mem_takeWhile {p : Char → Bool} {cs : List Char} {c : Char} (h : c ∈ cs.takeWhile p) :
    p c = true :=
  List.all_eq_true.1 List.all_takeWhile c h

theorem take_of_eq_append {cs w ds : List Char} (h : cs = w ++ ds) (n : Nat) :
    cs.take (w.length + n) = w ++ ds.take n := by
  rw [h, List.take_length_add_append]

/-- A text that is not all of one class goes on with another character. -/
theorem exists_of_takeWhile_lt {p : Char → Bool} {cs : List Char}
    (h : (cs.takeWhile p).length < cs.length) :
    ∃ d ds, cs = cs.takeWhile p ++ d :: ds ∧ p d = false := by
  have hsplit := List.takeWhile_append_dropWhile (p := p) (l := cs)
  cases hrest : cs.dropWhile p with
  | nil =>
    rw [hrest, List.append_nil] at hsplit
    exact absurd (congrArg List.length hsplit) (Nat.ne_of_lt h)
  | cons d ds =>
    refine ⟨d, ds, by rw [← hrest, hsplit], ?_⟩
    have hhead := List.head_dropWhile_not p (l := cs) (by simp [hrest])
    simpa [hrest] using hhead

/-- What `fraction` finds stands behind a point. -/
theorem exists_of_fraction {cs : List Char} (h : fraction cs ≠ []) :
    ∃ digits, cs = '.' :: digits ∧ fraction cs = digits.takeWhile Char.isDigit := by
  unfold fraction at h ⊢
  split at h
  · exact ⟨_, rfl, rfl⟩
  · exact absurd rfl h

/-- A word is a token, whether it is reserved or not. -/
theorem lexeme_ofWord {c : Char} {cs : List Char} (hc : startsWord c)
    (hcs : ∀ d ∈ cs, continuesWord d) : Lexeme (c :: cs) (.ofWord (String.ofList (c :: cs))) := by
  unfold Kind.ofWord
  cases hl : keywords.lookup (String.ofList (c :: cs)) with
  | none =>
    refine .identifier hc hcs fun hmem => ?_
    obtain ⟨entry, hentry, hword⟩ := List.mem_map.1 hmem
    have hne := List.lookup_eq_none_iff.1 hl entry hentry
    simp [hword] at hne
  | some kind =>
    obtain ⟨l, l', hl, -⟩ := List.lookup_eq_some_iff.1 hl
    have hkeyword : (String.ofList (c :: cs), kind) ∈ keywords := by simp [hl]
    simpa using Lexeme.keyword hkeyword

theorem isPiece_withEqual {c : Char} {short long : Kind} (h : (c, short, long) ∈ operators)
    (cs : List Char) :
    IsPiece (c :: cs.take (withEqual short long cs).2) (withEqual short long cs).1 := by
  unfold withEqual
  split
  · rename_i hhead
    obtain ⟨ds, rfl⟩ : ∃ ds, cs = '=' :: ds := List.head?_eq_some_iff.1 hhead
    exact .token (.long h)
  · exact .token (.short h)

theorem isPiece_afterSlash (cs : List Char) :
    IsPiece ('/' :: cs.take (afterSlash cs).2) (afterSlash cs).1 := by
  unfold afterSlash
  split
  · rename_i hhead
    obtain ⟨ds, rfl⟩ : ∃ ds, cs = '/' :: ds := List.head?_eq_some_iff.1 hhead
    have hcomment : '\n' ∉ ds.takeWhile (· ≠ '\n') := by
      intro hmem
      simpa using mem_takeWhile hmem
    rw [take_length_takeWhile, List.takeWhile_cons_of_pos (by decide)]
    exact .skipped (.comment hcomment)
  · exact .token .slash

theorem isPiece_afterQuote {cs : List Char} (h : (afterQuote cs).1.isFault = false) :
    IsPiece ('"' :: cs.take (afterQuote cs).2) (afterQuote cs).1 := by
  unfold afterQuote at h ⊢
  dsimp only at h ⊢
  split
  · rename_i hlt
    obtain ⟨d, ds, hcs, hd⟩ := exists_of_takeWhile_lt hlt
    obtain rfl : d = '"' := by simpa using hd
    have hcontents : '"' ∉ cs.takeWhile (· ≠ '"') := by
      intro hmem
      simpa using mem_takeWhile hmem
    rw [take_of_eq_append hcs]
    exact .token (.string hcontents)
  · rename_i hlt
    rw [if_neg hlt] at h
    cases h

theorem isPiece_afterDigit {c : Char} (hc : c.isDigit) (cs : List Char) :
    IsPiece (c :: cs.take (afterDigit c cs).2) (afterDigit c cs).1 := by
  have hwhole : ∀ d ∈ c :: cs.takeWhile Char.isDigit, d.isDigit :=
    List.forall_mem_cons.2 ⟨hc, fun d hd => mem_takeWhile hd⟩
  simp only [afterDigit]
  split
  · rename_i hnone
    rw [take_length_takeWhile, hnone]
    exact .token (.whole hwhole)
  · rename_i hsome
    obtain ⟨digits, hdrop, hfraction⟩ := exists_of_fraction hsome
    have hcs : cs = cs.takeWhile Char.isDigit ++ '.' :: digits := by
      rw [← hdrop, List.takeWhile_append_dropWhile]
    rw [hfraction] at hsome ⊢
    rw [Nat.add_assoc, take_of_eq_append hcs, Nat.add_comm, List.take_succ_cons,
      take_length_takeWhile]
    exact .token (.decimal hwhole hsome fun d hd => mem_takeWhile hd)

/-- What a reading step takes is a token or may be skipped, unless it reports a fault. -/
theorem isPiece_front {c : Char} {cs : List Char} (h : (front c cs).1.isFault = false) :
    IsPiece (c :: cs.take (front c cs).2) (front c cs).1 := by
  have hstarts := starts c
  generalize front c = f at hstarts h ⊢
  cases hstarts with
  | mark hmark => exact .token (.mark hmark)
  | operator hoperator => exact isPiece_withEqual hoperator cs
  | gap hgap => exact .skipped (.gap hgap)
  | slash hslash =>
    subst hslash
    exact isPiece_afterSlash cs
  | quote hquote =>
    subst hquote
    exact isPiece_afterQuote h
  | digit hdigit => exact isPiece_afterDigit hdigit cs
  | letter hletter =>
    rw [show (afterLetter c cs).2 = (cs.takeWhile continuesWord).length from rfl,
      take_length_takeWhile]
    exact .token (lexeme_ofWord hletter fun d hd => mem_takeWhile hd)
  | other => cases h

/-! ### A piece is read whole -/

theorem takeWhile_append_of_all {p : Char → Bool} {cs : List Char} (h : ∀ c ∈ cs, p c = true)
    {d : Char} (hd : p d = false) (ds : List Char) : (cs ++ d :: ds).takeWhile p = cs := by
  rw [List.takeWhile_append_of_pos h, List.takeWhile_cons_of_neg (by simp [hd]), List.append_nil]

theorem front_word {c : Char} {cs : List Char} (hc : startsWord c)
    (hcs : ∀ d ∈ cs, continuesWord d) :
    front c cs = (.token (.ofWord (String.ofList (c :: cs))), cs.length) := by
  have hall : cs.takeWhile continuesWord = cs := List.takeWhile_eq_self_iff.2 hcs
  rw [(Starts.letter hc).front_eq, afterLetter, hall]

/-- Digits that end before a text, which does not go on with a fraction. -/
theorem afterDigit_whole {cs : List Char} (c : Char) (rest : List Char)
    (hcs : ∀ d ∈ cs, d.isDigit) (hrest : rest.takeWhile Char.isDigit = [])
    (hnone : fraction rest = []) :
    afterDigit c (cs ++ rest)
      = (.token (.number (Decimal.ofParts (c :: cs) [] 0)), cs.length) := by
  have hdrop : rest.dropWhile Char.isDigit = rest := by
    have hsplit := List.takeWhile_append_dropWhile (p := Char.isDigit) (l := rest)
    rwa [hrest, List.nil_append] at hsplit
  rw [afterDigit, List.takeWhile_append_of_pos hcs, List.dropWhile_append_of_pos hcs, hrest, hdrop,
    hnone, List.append_nil]
  rfl

/-- Digits, a point and more digits that end before a text. -/
theorem afterDigit_decimal {cs ds : List Char} (c : Char) (rest : List Char)
    (hcs : ∀ d ∈ cs, d.isDigit) (hne : ds ≠ []) (hds : ∀ d ∈ ds, d.isDigit)
    (hrest : rest.takeWhile Char.isDigit = []) :
    afterDigit c (cs ++ '.' :: ds ++ rest)
      = (.token (.number (Decimal.ofParts (c :: cs) ds 0)), (cs ++ '.' :: ds).length) := by
  have hfraction : fraction ('.' :: (ds ++ rest)) = ds := by
    show (ds ++ rest).takeWhile Char.isDigit = ds
    rw [List.takeWhile_append_of_pos hds, hrest, List.append_nil]
  have hdrop : ('.' :: (ds ++ rest)).dropWhile Char.isDigit = '.' :: (ds ++ rest) := rfl
  rw [List.append_assoc, List.cons_append, afterDigit, takeWhile_append_of_all hcs (by decide),
    List.dropWhile_append_of_pos hcs, hdrop, hfraction, if_neg hne, List.length_append,
    List.length_cons, Nat.add_right_comm, Nat.add_assoc]

/-- The token is the first piece of its own text, and all of it. -/
theorem front_of_lexeme {w : List Char} {kind : Kind} (h : Lexeme w kind) :
    ∃ c cs, w = c :: cs ∧ front c cs = (.token kind, cs.length) := by
  cases h with
  | mark h => exact ⟨_, [], rfl, by rw [(Starts.mark h).front_eq]; rfl⟩
  | short h => exact ⟨_, [], rfl, by rw [(Starts.operator h).front_eq]; rfl⟩
  | long h => exact ⟨_, _, rfl, by rw [(Starts.operator h).front_eq]; rfl⟩
  | slash => exact ⟨_, _, rfl, rfl⟩
  | @whole c cs h =>
    obtain ⟨hc, hcs⟩ := List.forall_mem_cons.1 h
    have hwhole := afterDigit_whole c [] hcs rfl rfl
    rw [List.append_nil] at hwhole
    exact ⟨c, cs, rfl, by rw [(Starts.digit hc).front_eq, hwhole]⟩
  | @decimal c cs ds h hne hds =>
    obtain ⟨hc, hcs⟩ := List.forall_mem_cons.1 h
    have hdecimal := afterDigit_decimal c [] hcs hne hds rfl
    rw [List.append_nil] at hdecimal
    exact ⟨c, cs ++ '.' :: ds, rfl, by rw [(Starts.digit hc).front_eq, hdecimal]⟩
  | @keyword word kind h =>
    have hall : ∀ entry ∈ keywords, Kind.ofWord entry.1 = entry.2
        ∧ (entry.1.toList.head?.any startsWord && entry.1.toList.tail.all continuesWord) := by
      decide
    obtain ⟨hkind, hword⟩ := hall _ h
    rw [Bool.and_eq_true, List.all_eq_true] at hword
    rw [← String.ofList_toList (s := word)] at hkind
    generalize word.toList = w at hkind hword
    cases w with
    | nil => cases hword.1
    | cons c cs =>
      refine ⟨c, cs, rfl, (front_word hword.1 hword.2).trans ?_⟩
      exact congrArg (fun kind => (Piece.token kind, cs.length)) hkind
  | @identifier c cs hc hcs h =>
    refine ⟨c, cs, rfl, ?_⟩
    have hnone : keywords.lookup (String.ofList (c :: cs)) = none := by
      rw [List.lookup_eq_none_iff]
      intro entry hentry
      rw [bne_iff_ne]
      exact fun he => h (List.mem_map.2 ⟨entry, hentry, he.symm⟩)
    rw [front_word hc hcs, Kind.ofWord, hnone]
    rfl
  | @string cs h =>
    refine ⟨'"', cs ++ ['"'], rfl, ?_⟩
    have hcontents : (cs ++ ['"']).takeWhile (· ≠ '"') = cs := by
      refine takeWhile_append_of_all (fun c hc => decide_eq_true ?_) (by decide) []
      rintro rfl
      exact h hc
    rw [(Starts.quote rfl).front_eq, afterQuote, hcontents, List.length_append]
    exact if_pos (Nat.lt_succ_self _)

/-- A text that is a piece is read as this piece, to its end. -/
theorem front_of_isPiece {w : List Char} {piece : Piece} (h : IsPiece w piece) :
    ∃ c cs, w = c :: cs ∧ front c cs = (piece, cs.length) := by
  cases h with
  | skipped h =>
    cases h with
    | gap h => exact ⟨_, [], rfl, by rw [(Starts.gap h).front_eq]; rfl⟩
    | @comment cs h =>
      refine ⟨_, _, rfl, ?_⟩
      have hall : ('/' :: cs).takeWhile (· ≠ '\n') = '/' :: cs := by
        rw [List.takeWhile_eq_self_iff]
        refine List.forall_mem_cons.2 ⟨by decide, fun c hc => decide_eq_true ?_⟩
        rintro rfl
        exact h hc
      rw [(Starts.slash rfl).front_eq, afterSlash, hall]
      exact if_pos rfl
  | token h => exact front_of_lexeme h

theorem length_takeWhile_append_le (p : Char → Bool) (cs ds : List Char) :
    (cs.takeWhile p).length ≤ ((cs ++ ds).takeWhile p).length := by
  rw [List.takeWhile_append]
  split
  · rw [List.length_append]
    exact Nat.le_add_right_of_le (length_takeWhile_le p cs)
  · exact Nat.le_refl _

/-- A step takes no less of a text that goes on, and finds nothing wrong with it. -/
def GrowsTo (taken taken' : Piece × Nat) : Prop :=
  taken'.1.isFault = false ∧ taken.2 ≤ taken'.2

theorem afterSlash_append (cs ds : List Char) : GrowsTo (afterSlash cs) (afterSlash (cs ++ ds)) := by
  cases cs with
  | nil =>
    refine ⟨?_, Nat.zero_le _⟩
    unfold afterSlash
    split <;> rfl
  | cons d cs =>
    by_cases hd : d = '/'
    · subst hd
      exact ⟨rfl, length_takeWhile_append_le _ ('/' :: cs) ds⟩
    · have halone (cs : List Char) : afterSlash (d :: cs) = (.token .slash, 0) :=
        if_neg fun hhead => hd (Option.some.inj hhead)
      rw [List.cons_append, halone, halone]
      exact ⟨rfl, Nat.le_refl _⟩

theorem afterQuote_append {cs : List Char} (h : (afterQuote cs).1.isFault = false)
    (ds : List Char) : GrowsTo (afterQuote cs) (afterQuote (cs ++ ds)) := by
  simp only [afterQuote] at h ⊢
  have hlt : (cs.takeWhile (· ≠ '"')).length < cs.length := by
    refine Nat.lt_of_not_le fun hle => ?_
    rw [if_neg (Nat.not_lt.2 hle)] at h
    cases h
  have htake : (cs ++ ds).takeWhile (· ≠ '"') = cs.takeWhile (· ≠ '"') := by
    rw [List.takeWhile_append, if_neg (Nat.ne_of_lt hlt)]
  rw [htake, if_pos hlt, List.length_append, if_pos (Nat.lt_add_right _ hlt)]
  exact ⟨rfl, Nat.le_refl _⟩

theorem afterDigit_append (c : Char) (cs ds : List Char) :
    GrowsTo (afterDigit c cs) (afterDigit c (cs ++ ds)) := by
  refine ⟨rfl, ?_⟩
  have hle := length_takeWhile_append_le Char.isDigit cs ds
  simp only [afterDigit]
  by_cases hnone : fraction (cs.dropWhile Char.isDigit) = []
  · rw [if_pos hnone]
    split
    · exact hle
    · omega
  · obtain ⟨digits, hdrop, hfraction⟩ := exists_of_fraction hnone
    have hdigits : ∀ d ∈ cs.takeWhile Char.isDigit, d.isDigit := fun d hd => mem_takeWhile hd
    have hcs : cs ++ ds = cs.takeWhile Char.isDigit ++ '.' :: (digits ++ ds) := by
      rw [← List.cons_append, ← hdrop, ← List.append_assoc, List.takeWhile_append_dropWhile]
    have hwhole : (cs ++ ds).takeWhile Char.isDigit = cs.takeWhile Char.isDigit := by
      rw [hcs, takeWhile_append_of_all hdigits (by decide)]
    have hrest : fraction ((cs ++ ds).dropWhile Char.isDigit)
        = (digits ++ ds).takeWhile Char.isDigit := by
      rw [hcs, List.dropWhile_append_of_pos hdigits]
      rfl
    have hmore := length_takeWhile_append_le Char.isDigit digits ds
    rw [if_neg hnone, hwhole, hrest, hfraction]
    rw [hfraction] at hnone
    have hpos := List.length_pos_iff.2 hnone
    split
    · rename_i hempty
      rw [hempty] at hmore
      exact absurd hmore (Nat.not_le.2 hpos)
    · omega

/-- The piece at the front of a text is no shorter when the text goes on. -/
theorem front_append {c : Char} {cs : List Char} (h : (front c cs).1.isFault = false)
    (ds : List Char) : GrowsTo (front c cs) (front c (cs ++ ds)) := by
  have hstarts := starts c
  generalize front c = f at hstarts h ⊢
  cases hstarts with
  | mark | gap => exact ⟨rfl, Nat.le_refl _⟩
  | operator =>
    cases cs with
    | nil =>
      refine ⟨?_, Nat.zero_le _⟩
      unfold withEqual
      split <;> rfl
    | cons d cs =>
      exact ⟨h, Nat.le_refl _⟩
  | slash => exact afterSlash_append cs ds
  | quote => exact afterQuote_append h ds
  | digit => exact afterDigit_append c cs ds
  | letter => exact ⟨rfl, length_takeWhile_append_le _ cs ds⟩
  | other => cases h

/-! ### The longest piece -/

theorem IsPiece.isFault {w : List Char} {piece : Piece} (h : IsPiece w piece) :
    piece.isFault = false := by
  cases h <;> rfl

/-- A piece at the front of a text is no longer than what is taken. -/
theorem front_of_start {c : Char} {cs w : List Char} {piece : Piece} (hw : w <+: c :: cs)
    (h : IsPiece w piece) :
    (front c cs).1.isFault = false ∧ w.length ≤ (front c cs).2 + 1 := by
  obtain ⟨c', cs', rfl, hfront⟩ := front_of_isPiece h
  obtain ⟨ds, hds⟩ := hw
  obtain ⟨rfl, rfl⟩ := List.cons.inj hds
  have hmore := front_append (by rw [hfront]; exact h.isFault) ds
  rw [hfront] at hmore
  exact ⟨hmore.1, Nat.succ_le_succ hmore.2⟩

/-- What is taken is the longest piece, unless a fault is reported. -/
theorem Longest.front {c : Char} {cs : List Char} (h : (front c cs).1.isFault = false) :
    Longest (c :: cs) (c :: cs.take (Lexer.front c cs).2) (Lexer.front c cs).1 := by
  refine ⟨isPiece_front h, ?_, fun w' piece' hw' h' => ?_⟩
  · exact (List.prefix_cons_inj c).2 (List.take_prefix _ cs)
  · rw [List.length_cons, List.length_take_of_le (front_le c cs)]
    exact (front_of_start hw' h').2

/-- If a fault is reported, the text does not start with a piece. -/
theorem not_isPiece_of_isFault {c : Char} {cs : List Char} (h : (front c cs).1.isFault = true)
    (w : List Char) (piece : Piece) (hw : w <+: c :: cs) : ¬ IsPiece w piece := by
  intro hpiece
  rw [(front_of_start hw hpiece).1] at h
  cases h

/-- The longest piece is what is taken. -/
theorem Longest.front_eq {w rest : List Char} {piece : Piece} (h : Longest (w ++ rest) w piece) :
    ∃ c cs, w = c :: cs ∧ Lexer.front c (cs ++ rest) = (piece, cs.length) := by
  obtain ⟨c, cs, rfl, hfront⟩ := front_of_isPiece h.isPiece
  refine ⟨c, cs, rfl, ?_⟩
  obtain ⟨hfault, hle⟩ : (Lexer.front c (cs ++ rest)).1.isFault = false
      ∧ (c :: cs).length ≤ (Lexer.front c (cs ++ rest)).2 + 1 :=
    front_of_start h.isPrefix h.isPiece
  have htaken := Longest.front hfault
  have hge := h.longest _ _ htaken.isPrefix htaken.isPiece
  rw [List.length_cons, List.length_cons, List.length_take_of_le (front_le c (cs ++ rest))] at hge
  have hlength : (Lexer.front c (cs ++ rest)).2 = cs.length :=
    Nat.le_antisymm (Nat.succ_le_succ_iff.1 hge) (Nat.succ_le_succ_iff.1 hle)
  obtain ⟨c', cs', hcs', hfront'⟩ := front_of_isPiece htaken.isPiece
  rw [hlength, List.take_left] at hcs'
  obtain ⟨rfl, rfl⟩ := List.cons.inj hcs'
  have hpiece := congrArg Prod.fst (hfront.symm.trans hfront')
  exact Prod.ext hpiece.symm hlength

/-- The faults are those of a string without an end, which take the whole text, and those of other
characters. -/
theorem front_of_isFault {c : Char} {cs : List Char} (h : (front c cs).1.isFault = true) :
    (c = '"' ∧ front c cs = (.fault .unterminatedString, cs.length))
      ∨ (c ≠ '"' ∧ front c cs = (.fault (.unexpectedCharacter c), 0)) := by
  have hstarts := starts c
  generalize front c = f at hstarts h ⊢
  cases hstarts with
  | mark | gap | digit | letter => cases h
  | operator =>
    unfold withEqual at h
    split at h <;> cases h
  | slash =>
    unfold afterSlash at h
    split at h <;> cases h
  | quote hquote =>
    refine .inl ⟨hquote, ?_⟩
    simp only [afterQuote] at h ⊢
    by_cases hlt : (cs.takeWhile (· ≠ '"')).length < cs.length
    · rw [if_pos hlt] at h
      cases h
    · have hlength := Nat.le_antisymm (length_takeWhile_le (· ≠ '"') cs) (Nat.le_of_not_lt hlt)
      rw [if_neg hlt, hlength]
  | other _ _ _ _ hquote => exact .inr ⟨hquote, rfl⟩

/-! ### The items of a text -/

/-- The items of a text of which the first piece is known. -/
theorem itemsFrom_piece {c : Char} {cs rest : List Char} {piece : Piece}
    (h : front c (cs ++ rest) = (piece, cs.length)) (line : Nat) :
    itemsFrom line (c :: cs ++ rest)
      = (piece.item? (c :: cs) (line + (c :: cs).count '\n')).toList
        ++ itemsFrom (line + (c :: cs).count '\n') rest := by
  rw [List.cons_append, itemsFrom, h]
  dsimp only
  rw [List.take_left, List.drop_left]

theorem itemsFrom_first {c : Char} {rest : List Char} {piece : Piece}
    (h : front c rest = (piece, 0)) (line : Nat) :
    itemsFrom line (c :: rest)
      = (piece.item? [c] (line + [c].count '\n')).toList
        ++ itemsFrom (line + [c].count '\n') rest :=
  @itemsFrom_piece c [] rest piece h line

theorem itemsFrom_whole {c : Char} {cs : List Char} {piece : Piece}
    (h : front c cs = (piece, cs.length)) (line : Nat) :
    itemsFrom line (c :: cs)
      = (piece.item? (c :: cs) (line + (c :: cs).count '\n')).toList
        ++ itemsFrom (line + (c :: cs).count '\n') [] := by
  have hfront : front c (cs ++ []) = (piece, cs.length) := by rwa [List.append_nil]
  simpa using itemsFrom_piece hfront line

/-- Every reading of the longest pieces gives the items of the text. -/
theorem Lexes.eq_itemsFrom {before text : List Char} {found : List Item}
    (h : Lexes before text found) : found = itemsFrom (1 + before.count '\n') text := by
  induction h with
  | done before => rw [itemsFrom]
  | skip h _ ih =>
    obtain ⟨c, cs, rfl, hfront⟩ := h.front_eq
    rw [itemsFrom_piece hfront, ih, List.count_append, Nat.add_assoc]
    rfl
  | token h _ ih =>
    obtain ⟨c, cs, rfl, hfront⟩ := h.front_eq
    rw [itemsFrom_piece hfront, ih, List.count_append, Nat.add_assoc]
    rfl
  | @unexpected before rest c items h hc _ ih =>
    have hfault : (front c rest).1.isFault = true := by
      by_contra hnot
      have hfirst := Longest.front (eq_false_of_ne_true hnot)
      exact h _ _ hfirst.isPrefix hfirst.isPiece
    have hfront := ((front_of_isFault hfault).resolve_left fun h => hc h.1).2
    have hitems := itemsFrom_first hfront (1 + before.count '\n')
    rw [ih, List.count_append, ← Nat.add_assoc]
    exact hitems.symm
  | @unterminated before rest items h _ ih =>
    have hfault : (front '"' rest).1.isFault = true := by
      by_contra hnot
      have hfirst := Longest.front (eq_false_of_ne_true hnot)
      exact h _ _ hfirst.isPrefix hfirst.isPiece
    have hfront := ((front_of_isFault hfault).resolve_right fun h => h.1 rfl).2
    have hitems := itemsFrom_whole hfront (1 + before.count '\n')
    rw [ih, List.count_append, ← Nat.add_assoc]
    exact hitems.symm

/-- The items of a text are those of a reading of the longest pieces. -/
theorem lexes_itemsFrom (before text : List Char) :
    Lexes before text (itemsFrom (1 + before.count '\n') text) := by
  induction hn : text.length using Nat.strongRecOn generalizing before text with
  | ind n ih =>
    cases text with
    | nil =>
      rw [itemsFrom]
      exact .done before
    | cons c cs =>
      rw [List.length_cons] at hn
      by_cases hfault : (front c cs).1.isFault = true
      · have hnone := not_isPiece_of_isFault hfault
        rcases front_of_isFault hfault with ⟨rfl, hfront⟩ | ⟨hc, hfront⟩
        · have hitems := itemsFrom_whole hfront (1 + before.count '\n')
          rw [Nat.add_assoc, ← List.count_append] at hitems
          rw [hitems]
          exact .unterminated hnone (ih 0 (by omega) _ _ rfl)
        · have hitems := itemsFrom_first hfront (1 + before.count '\n')
          rw [Nat.add_assoc, ← List.count_append] at hitems
          rw [hitems]
          exact .unexpected hnone hc (ih cs.length (by omega) _ cs rfl)
      · have hlongest := Longest.front (eq_false_of_ne_true hfault)
        obtain ⟨ds, rest, rfl, hlength⟩ : ∃ ds rest, cs = ds ++ rest
            ∧ (front c cs).2 = ds.length :=
          ⟨cs.take (front c cs).2, cs.drop (front c cs).2, (List.take_append_drop _ cs).symm,
            (List.length_take_of_le (front_le c cs)).symm⟩
        have hfront : front c (ds ++ rest) = ((front c (ds ++ rest)).1, ds.length) :=
          Prod.ext rfl hlength
        have hitems := itemsFrom_piece hfront (1 + before.count '\n')
        rw [hlength, List.take_left] at hlongest
        rw [Nat.add_assoc, ← List.count_append, List.cons_append] at hitems
        rw [hitems]
        have hlater := ih rest.length (by simp at hn; omega) (before ++ c :: ds) rest rfl
        generalize (front c (ds ++ rest)).1 = piece at hlongest ⊢
        cases piece with
        | skipped => exact .skip hlongest hlater
        | token kind => exact .token hlongest hlater
        | fault cause => exact absurd hlongest.isPiece.isFault (by simp [Piece.isFault])

theorem Lexeme.ne_eof {w : List Char} {kind : Kind} (h : Lexeme w kind) : kind ≠ .eof := by
  have hmarks : ∀ e ∈ marks, e.2 ≠ .eof := by decide
  have hoperators : ∀ e ∈ operators, e.2.1 ≠ .eof ∧ e.2.2 ≠ .eof := by decide
  have hkeywords : ∀ e ∈ keywords, e.2 ≠ .eof := by decide
  cases h with
  | mark h => exact hmarks _ h
  | short h => exact (hoperators _ h).1
  | long h => exact (hoperators _ h).2
  | keyword h => exact hkeywords _ h
  | slash | whole | decimal | identifier | string => exact nofun

/-- The last item is the end of the program, on the line after all newlines, and no other item is. -/
theorem Lexes.ends {before text : List Char} {found : List Item} (h : Lexes before text found) :
    ∃ body, found = body ++ [.token ⟨.eof, "", 1 + (before ++ text).count '\n'⟩]
      ∧ ∀ t, Item.token t ∈ body → t.kind ≠ .eof := by
  induction h with
  | done before => exact ⟨[], by rw [List.append_nil]; rfl, by simp⟩
  | skip h _ ih =>
    rw [← List.append_assoc]
    exact ih
  | token h _ ih =>
    obtain ⟨body, rfl, hbody⟩ := ih
    refine ⟨_ :: body, by rw [← List.append_assoc]; rfl, fun t ht => ?_⟩
    rcases List.mem_cons.1 ht with ht | ht
    · rw [Item.token.inj ht]
      cases h.isPiece with
      | token h => exact h.ne_eof
    · exact hbody t ht
  | @unexpected before rest c items h hc _ ih =>
    obtain ⟨body, rfl, hbody⟩ := ih
    refine ⟨_ :: body, by rw [List.append_assoc]; rfl, fun t ht => ?_⟩
    exact hbody t ((List.mem_cons.1 ht).resolve_left nofun)
  | @unterminated before rest items h _ ih =>
    obtain ⟨body, rfl, hbody⟩ := ih
    refine ⟨_ :: body, by rw [List.append_nil]; rfl, fun t ht => ?_⟩
    exact hbody t ((List.mem_cons.1 ht).resolve_left nofun)

/-- The items of a text are those that a reading of the longest pieces finds, and no others. -/
theorem lexes_iff (source : String) (found : List Item) :
    Lexes [] source.toList found ↔ found = items source := by
  constructor
  · exact Lexes.eq_itemsFrom
  · rintro rfl
    exact lexes_itemsFrom [] source.toList

end Lexer

end Lox
