import Lox.Proofs.Lexing.Bytes
import Lox.Proofs.Lexing.Joined
import Lox.Proofs.Lexing.Longest

/-!
Reading a text byte by byte. A `Scanner` is a cursor over the bytes of a text that gives out one item
after the other; wherever it takes a slice, it would stop for good if an end of the slice were not on a
boundary of characters. It never is: between two pieces the cursor stands between two characters
(`Scanner.Placed`), it gives out the items of the text, and nothing after the last of them
(`Scanner.calls`).
-/

namespace Lox

open Lexer

/-- A cursor over the bytes of a text. -/
structure Scanner where
  /-- The index of the first byte of the piece that is being read. -/
  start : Nat := 0
  /-- The index of the first byte that has not been read. -/
  current : Nat := 0
  line : Nat := 1
  /-- The end of the program has been given out. -/
  done : Bool := false

namespace Lexer

/-- The line that an item is on. -/
def Item.line : Item → Nat
  | .token t => t.line
  | .fault line _ => line

end Lexer

namespace Scanner

/-! ### The cursor -/

section

variable (source : String) (s : Scanner)

/-- The bytes that have not been read. -/
def rest : List UInt8 :=
  (bytes source).drop s.current

/-- The byte that is this far ahead, and 0 behind the end of the text. -/
def byteAt (offset : Nat) : UInt8 :=
  (s.rest source).getD offset 0

/-- A new piece starts where the cursor stands. -/
def begin : Scanner :=
  { s with start := s.current }

def skip (n : Nat) : Scanner :=
  { s with current := s.current + n }

/-- Goes on over bytes that have line breaks among them. -/
def skipLines (n lines : Nat) : Scanner :=
  { s with current := s.current + n, line := s.line + lines }

/-- Goes on to the first byte that is not in the class. -/
def advanceWhile (p : UInt8 → Bool) : Scanner :=
  s.skip ((s.rest source).takeWhile p).length

/-- The characters of the piece that is being read. -/
def lexeme? : Option String :=
  slice? source s.start s.current

end

/-! ### One piece -/

def isDigit (b : UInt8) : Bool :=
  byte '0' ≤ b && b ≤ byte '9'

def startsWord (b : UInt8) : Bool :=
  (byte 'A' ≤ b && b ≤ byte 'Z') || (byte 'a' ≤ b && b ≤ byte 'z') || b = byte '_'

def continuesWord (b : UInt8) : Bool :=
  startsWord b || isDigit b

section

variable (source : String) (s : Scanner)

/-- A string, after its opening quote. -/
def string : Option (Piece × Scanner) :=
  let contents := (s.rest source).takeWhile (· ≠ byte '"')
  let s := s.skipLines contents.length (contents.count (byte '\n'))
  if s.rest source = [] then some (.fault .unterminatedString, s)
  else
    let s := s.skip 1
    (slice? source (s.start + 1) (s.current - 1)).map fun text => (.token (.string text), s)

/-- A number, after its first digit. -/
def number : Option (Piece × Scanner) :=
  let s := s.advanceWhile source isDigit
  let s :=
    if s.byteAt source 0 = byte '.' ∧ isDigit (s.byteAt source 1) then
      (s.skip 1).advanceWhile source isDigit
    else s
  (s.lexeme? source).map fun text =>
    (.token (.number ((Decimal.readNumeral? text.toList).getD 0)), s)

/-- A word, after its first letter. -/
def word : Option (Piece × Scanner) :=
  let s := s.advanceWhile source continuesWord
  (s.lexeme? source).map fun text => (.token (.ofWord text), s)

/-- A character that starts nothing, after its first byte. -/
def unexpected : Option (Piece × Scanner) :=
  let s := s.advanceWhile source isContinuation
  (s.lexeme? source).map fun text =>
    (.fault (.unexpectedCharacter (text.toList.headD '\uFFFD')), s)

/-- The next piece, of which `b` is the first byte, and the cursor stands behind it. -/
def pieceAfter (b : UInt8) : Option (Piece × Scanner) :=
  match (marks.map fun e => (byte e.1, e.2)).lookup b,
    (operators.map fun e => (byte e.1, e.2)).lookup b with
  | some kind, _ => some (.token kind, s)
  | none, some (short, long) =>
    if s.byteAt source 0 = byte '=' then some (.token long, s.skip 1)
    else some (.token short, s)
  | none, none =>
    if b = byte '\n' then some (.skipped, s.skipLines 0 1)
    else if b = byte ' ' ∨ b = byte '\r' ∨ b = byte '\t' then some (.skipped, s)
    else if b = byte '/' then
      if s.byteAt source 0 = byte '/' then
        some (.skipped, s.advanceWhile source (· ≠ byte '\n'))
      else some (.token .slash, s)
    else if b = byte '"' then s.string source
    else if isDigit b then s.number source
    else if startsWord b then s.word source
    else s.unexpected source

theorem current_le_of_map {α : Type} {x : Option α} {f : α → Piece} {s s' s₁ : Scanner}
    {piece : Piece} (h : x.map (fun a => (f a, s₁)) = some (piece, s'))
    (hle : s.current ≤ s₁.current) : s.current ≤ s'.current := by
  obtain ⟨a, -, ha⟩ := Option.map_eq_some_iff.1 h
  obtain ⟨-, rfl⟩ := Prod.mk.inj ha
  exact hle

/-- No piece goes back. -/
theorem current_le_of_pieceAfter {b : UInt8} {piece : Piece} {s' : Scanner}
    (h : s.pieceAfter source b = some (piece, s')) : s.current ≤ s'.current := by
  have hskip (t : Scanner) (n : Nat) : t.current ≤ (t.skip n).current := Nat.le_add_right _ _
  unfold pieceAfter at h
  split at h
  · cases h
    exact Nat.le_refl _
  · split at h <;> cases h
    · exact hskip s 1
    · exact Nat.le_refl _
  split at h
  · cases h
    exact Nat.le_refl _
  split at h
  · cases h
    exact Nat.le_refl _
  split at h
  · split at h <;> cases h
    · exact hskip s _
    · exact Nat.le_refl _
  split at h
  · simp only [string] at h
    split at h
    · cases h
      exact hskip s _
    · exact current_le_of_map h (Nat.le_trans (hskip s _) (hskip _ 1))
  split at h
  · refine current_le_of_map h ?_
    split
    · exact Nat.le_trans (hskip s _) (Nat.le_trans (hskip _ 1) (hskip _ _))
    · exact hskip s _
  split at h
  · exact current_le_of_map h (hskip s _)
  · exact current_le_of_map h (hskip s _)

/-- The next item, and `none` in its place when all have been given out; there is no result at all if
a slice is not on boundaries of characters. -/
def next? (s : Scanner) : Option (Option Item × Scanner) :=
  match _hrest : s.rest source with
  | [] =>
    if s.done then some (none, s)
    else some (some (.token ⟨.eof, "", s.line⟩), { s with done := true })
  | b :: _ =>
    match _hpiece : (s.begin.skip 1).pieceAfter source b with
    | none => none
    | some (.skipped, s') => s'.next?
    | some (.fault cause, s') => some (some (.fault s'.line cause), s')
    | some (.token kind, s') =>
      (s'.lexeme? source).map fun text => (some (.token ⟨kind, text, s'.line⟩), s')
  termination_by (s.rest source).length
  decreasing_by
    have hle := current_le_of_pieceAfter source _ _hpiece
    have hpos := congrArg List.length _hrest
    simp only [rest, begin, skip, List.length_drop, List.length_cons] at hle hpos ⊢
    omega

end

/-! ### Between two characters -/

variable {source : String} {before cs : List Char} {s : Scanner}

/-- The cursor stands between the characters before it and those after it, on the right line. -/
structure Placed (source : String) (before after : List Char) (s : Scanner) : Prop where
  text : source.toList = before ++ after
  current : s.current = (encode before).length
  line : s.line = 1 + before.count '\n'

namespace Placed

theorem rest_eq (h : Placed source before cs s) : s.rest source = encode cs := by
  rw [rest, bytes_eq_encode, h.text, h.current, encode_append, List.drop_left]

/-- The cursor goes on over characters, and counts their lines. -/
theorem skipLines {w after : List Char} (h : Placed source before (w ++ after) s) :
    Placed source (before ++ w) after (s.skipLines (encode w).length (w.count '\n')) where
  text := by rw [h.text, List.append_assoc]
  current := by
    show s.current + _ = _
    rw [h.current, encode_append, List.length_append]
  line := by
    show s.line + _ = _
    rw [h.line, List.count_append, Nat.add_assoc]

/-- The cursor goes on over characters that are no newlines. -/
theorem skip {w after : List Char} (h : Placed source before (w ++ after) s)
    (hw : '\n' ∉ w) : Placed source (before ++ w) after (s.skip (encode w).length) := by
  have hlines := h.skipLines
  rwa [List.count_eq_zero_of_not_mem hw] at hlines

/-- The cursor goes on over a character of ASCII. -/
theorem skipOne {d : Char} {after : List Char} (h : Placed source before (d :: after) s)
    (hd : d.toNat < 128) (hne : d ≠ '\n') : Placed source (before ++ [d]) after (s.skip 1) := by
  have hlength : (encode [d]).length = 1 := by
    rcases utf8EncodeChar_cases d with ⟨-, hbytes⟩ | ⟨hge, -⟩
    · rw [encode_cons, hbytes]
      rfl
    · omega
  have hplaced := h.skip (w := [d]) (fun hmem => hne (List.mem_singleton.1 hmem).symm)
  rwa [hlength] at hplaced

/-- The cursor goes on over all characters of a class without the newline. -/
theorem advanceWhile {p : UInt8 → Bool} {q : Char → Bool} (h : Placed source before cs s)
    (hpq : Agree p q) (hq : q '\n' = false) :
    Placed source (before ++ cs.takeWhile q) (cs.dropWhile q) (s.advanceWhile source p) := by
  have hw : '\n' ∉ cs.takeWhile q := fun hmem => by
    rw [mem_takeWhile hmem] at hq
    cases hq
  rw [Scanner.advanceWhile, h.rest_eq, hpq.takeWhile_encode]
  exact skip (by rwa [List.takeWhile_append_dropWhile]) hw

theorem byteAt_zero {p : UInt8 → Bool} {q : Char → Bool} (h : Placed source before cs s)
    (hpq : Agree p q) (hp : p 0 = false) : p (s.byteAt source 0) = cs.head?.any q := by
  rw [byteAt, h.rest_eq, hpq.getD_encode hp]

/-- The next byte is a character of ASCII if the next character is. -/
theorem byteAt_zero_eq (h : Placed source before cs s) {d : Char} (hd : d.toNat < 128)
    (hne : byte d ≠ 0) : s.byteAt source 0 = byte d ↔ cs.head? = some d := by
  have hsame := h.byteAt_zero (.single hd) (decide_eq_false hne.symm)
  rw [← decide_eq_true_iff (p := s.byteAt source 0 = byte d), hsame]
  cases cs <;> simp

theorem lexeme? {w after : List Char} (h : Placed source (before ++ w) after s)
    (hstart : s.start = (encode before).length) : s.lexeme? source = some (String.ofList w) := by
  rw [Scanner.lexeme?, hstart, h.current]
  exact slice?_of_append h.text

end Placed

/-- The cursor has gone over the characters of a piece. -/
structure Reached (source : String) (before w after : List Char) (s s' : Scanner) : Prop where
  placed : Placed source (before ++ w) after s'
  start : s'.start = s.start
  done : s'.done = s.done

theorem Reached.of_skip {w after : List Char} {n : Nat} {s' : Scanner}
    (h : Reached source before w after (s.skip n) s') : Reached source before w after s s' :=
  ⟨h.placed, h.start, h.done⟩

/-! ### Classes of characters -/

theorem lt_of_isDigit {c : Char} (h : c.isDigit) : c.toNat < 128 := by
  simp only [Char.isDigit, Bool.and_eq_true, decide_eq_true_eq, UInt32.le_iff_toNat_le] at h
  exact Nat.lt_of_le_of_lt h.2 (by decide)

theorem lt_of_startsWord {c : Char} (h : Lexer.startsWord c) : c.toNat < 128 := by
  rcases Lexer.cases_of_startsWord h with h | h | rfl
  · omega
  · omega
  · decide

theorem agree_isDigit : Agree isDigit Char.isDigit :=
  .of_ascii (by decide) (by decide +kernel) fun _ hc =>
    Bool.eq_false_iff.2 fun h => Nat.not_lt.2 hc (lt_of_isDigit h)

theorem agree_startsWord : Agree startsWord Lexer.startsWord :=
  .of_ascii (by decide) (by decide +kernel) fun _ hc =>
    Bool.eq_false_iff.2 fun h => Nat.not_lt.2 hc (lt_of_startsWord h)

theorem agree_continuesWord : Agree continuesWord Lexer.continuesWord := by
  intro c b hb
  have hword : Lexer.continuesWord c = (Lexer.startsWord c || c.isDigit) := by
    simp only [Lexer.continuesWord, Lexer.startsWord, Char.isAlphanum]
    cases c.isAlpha <;> cases c.isDigit <;> simp
  rw [continuesWord, agree_startsWord c b hb, agree_isDigit c b hb, hword]

/-! ### Each kind of piece -/

theorem string_reached (h : Placed source (before ++ ['"']) cs s)
    (hstart : s.start = (encode before).length) :
    ∃ s', s.string source = some ((afterQuote cs).1, s')
      ∧ Reached source before ('"' :: cs.take (afterQuote cs).2) (cs.drop (afterQuote cs).2)
        s s' := by
  have hagree : Agree (· ≠ byte '"') (· ≠ '"') := .other (by decide)
  simp only [string, h.rest_eq, hagree.takeWhile_encode, count_encode]
  by_cases hlt : (cs.takeWhile (· ≠ '"')).length < cs.length
  · obtain ⟨d, ds, hcs, hd⟩ := exists_of_takeWhile_lt hlt
    obtain rfl : d = '"' := by simpa using hd
    have hafter : afterQuote cs = (.token (.string (String.ofList (cs.takeWhile (· ≠ '"')))),
        (cs.takeWhile (· ≠ '"')).length + 1) := by
      simp only [afterQuote, if_pos hlt]
    rw [hafter]
    generalize cs.takeWhile (· ≠ '"') = w at hcs
    subst hcs
    have hplaced := h.skipLines
    have hquote := hplaced.skipOne (by decide) (by decide)
    have hslice : slice? source (s.start + 1) (s.current + (encode w).length)
        = some (String.ofList w) := by
      have hstart' : s.start + 1 = (encode (before ++ ['"'])).length := by
        rw [hstart, encode_append, List.length_append]
        rfl
      rw [hstart', show s.current + (encode w).length = _ from hplaced.current]
      exact slice?_of_append hplaced.text
    rw [hplaced.rest_eq, if_neg (by simp [String.utf8EncodeChar_ne_nil])]
    refine ⟨_, Option.map_eq_some_iff.2 ⟨String.ofList w, hslice, rfl⟩, ?_, rfl, rfl⟩
    rw [take_of_eq_append rfl, List.drop_length_add_append]
    simpa using hquote
  · have hw : cs.takeWhile (· ≠ '"') = cs :=
      (List.takeWhile_prefix _).eq_of_length
        (Nat.le_antisymm (length_takeWhile_le _ cs) (Nat.le_of_not_lt hlt))
    have hafter : afterQuote cs = (.fault .unterminatedString, cs.length) := by
      simp only [afterQuote, hw]
      exact if_neg (Nat.lt_irrefl _)
    rw [← List.append_nil cs] at h
    have hplaced := h.skipLines
    rw [hafter, hw, hplaced.rest_eq, encode_nil, if_pos rfl]
    refine ⟨_, rfl, ?_, rfl, rfl⟩
    rw [List.take_length, List.drop_length]
    simpa using hplaced

theorem toLower_of_isDigit {c : Char} (hc : c.isDigit) : c.toLower = c := by
  have hupper : ¬ (c.val ≥ 'A'.val ∧ c.val ≤ 'Z'.val) := by
    simp only [Char.isDigit, Bool.and_eq_true, decide_eq_true_eq] at hc
    grind
  exact dif_neg hupper

/-- The number that digits are, with a fraction or without one. -/
theorem readNumeral?_digits {c : Char} {cs ds after : List Char} (hcs : ∀ d ∈ c :: cs, d.isDigit)
    (hds : ∀ d ∈ ds, d.isDigit) (hafter : after = [] ∧ ds = [] ∨ after = '.' :: ds) :
    Decimal.readNumeral? (c :: cs ++ after) = some (Decimal.ofParts (c :: cs) ds 0) := by
  have hc : c.isDigit := hcs c (List.mem_cons_self ..)
  have hsign : Decimal.takeSign (c :: cs ++ after) = (false, c :: cs ++ after) := by
    unfold Decimal.takeSign
    split
    · rename_i h
      rw [(List.cons.inj h).1] at hc
      cases hc
    · rename_i h
      rw [(List.cons.inj h).1] at hc
      cases hc
    · rfl
  have hword {d : Char} {w : List Char} (hd : d.isDigit = false) :
      (c :: cs ++ after).map Char.toLower ≠ d :: w := by
    intro h
    obtain ⟨hhead, -⟩ := List.cons.inj h
    rw [← hhead, toLower_of_isDigit hc, hc] at hd
    cases hd
  have hwhole : (c :: cs ++ after).takeWhile Char.isDigit = c :: cs := by
    rcases hafter with ⟨rfl, -⟩ | rfl
    · rw [List.append_nil]
      exact List.takeWhile_eq_self_iff.2 hcs
    · exact takeWhile_append_of_all hcs (by decide) ds
  have hdrop : (c :: cs ++ after).dropWhile Char.isDigit = after := by
    rcases hafter with ⟨rfl, -⟩ | rfl
    · rw [List.append_nil]
      exact List.dropWhile_eq_nil_iff.2 hcs
    · rw [List.dropWhile_append_of_pos hcs]
      rfl
  have hfraction : ds.takeWhile Char.isDigit = ds := List.takeWhile_eq_self_iff.2 hds
  have hnothing : ds.dropWhile Char.isDigit = [] := List.dropWhile_eq_nil_iff.2 hds
  have hunsigned : Decimal.readUnsigned? (c :: cs ++ after)
      = some (Decimal.ofParts (c :: cs) ds 0) := by
    simp only [Decimal.readUnsigned?, hwhole, hdrop]
    rw [if_neg (by rintro (h | h) <;> exact hword (by decide) h),
      if_neg (show _ ≠ "nan".toList from hword (d := 'n') (w := ['a', 'n']) (by decide))]
    rcases hafter with ⟨rfl, rfl⟩ | rfl
    · rfl
    · simp only [hfraction, hnothing]
      rfl
  rw [Decimal.readNumeral?, hsign]
  simp only [hunsigned]
  rfl

/-- There is a fraction if the next two characters are a point and a digit. -/
theorem Placed.fraction_iff (h : Placed source before cs s) :
    (s.byteAt source 0 = byte '.' ∧ isDigit (s.byteAt source 1) = true) ↔ fraction cs ≠ [] := by
  rw [h.byteAt_zero_eq (by decide) (by decide)]
  cases cs with
  | nil => simp [fraction]
  | cons d ds =>
    by_cases hd : d = '.'
    · subst hd
      have hbyte : isDigit (s.byteAt source 1) = ds.head?.any Char.isDigit := by
        rw [byteAt, h.rest_eq]
        exact agree_isDigit.getD_encode (by decide) ds
      have hfraction : fraction ('.' :: ds) ≠ [] ↔ ds.head?.any Char.isDigit = true := by
        cases ds with
        | nil => simp [fraction]
        | cons d ds => simp [fraction, List.takeWhile_cons]
      rw [hbyte, hfraction]
      exact and_iff_right rfl
    · have hnone : fraction (d :: ds) = [] := by
        by_contra hsome
        obtain ⟨digits, hcs, -⟩ := exists_of_fraction hsome
        exact hd (List.cons.inj hcs).1
      rw [hnone]
      constructor
      · exact fun h => absurd (Option.some.inj h.1) hd
      · exact fun h => absurd rfl h

theorem number_reached {c : Char} (h : Placed source (before ++ [c]) cs s) (hc : c.isDigit)
    (hstart : s.start = (encode before).length) :
    ∃ s', s.number source = some ((afterDigit c cs).1, s')
      ∧ Reached source before (c :: cs.take (afterDigit c cs).2) (cs.drop (afterDigit c cs).2)
        s s' := by
  have hwhole : ∀ d ∈ c :: cs.takeWhile Char.isDigit, d.isDigit :=
    List.forall_mem_cons.2 ⟨hc, fun d hd => mem_takeWhile hd⟩
  have hplaced := h.advanceWhile agree_isDigit (by decide)
  simp only [number, hplaced.fraction_iff, afterDigit]
  by_cases hnone : fraction (cs.dropWhile Char.isDigit) = []
  · rw [List.append_assoc, List.singleton_append] at hplaced
    have htext := readNumeral?_digits hwhole (List.forall_mem_nil _) (.inl ⟨rfl, rfl⟩)
    rw [List.append_nil] at htext
    rw [if_neg (not_not.2 hnone), if_pos hnone, hnone, hplaced.lexeme? hstart, Option.map_some,
      String.toList_ofList, htext, take_length_takeWhile, drop_length_takeWhile]
    exact ⟨_, rfl, hplaced, rfl, rfl⟩
  · obtain ⟨digits, hdrop, hfraction⟩ := exists_of_fraction hnone
    have hcs : cs = cs.takeWhile Char.isDigit ++ '.' :: digits := by
      rw [← hdrop, List.takeWhile_append_dropWhile]
    have hdigits : ∀ d ∈ digits.takeWhile Char.isDigit, d.isDigit := fun d hd => mem_takeWhile hd
    have htext := readNumeral?_digits hwhole hdigits (.inr rfl)
    rw [hdrop] at hplaced
    have hlast := (hplaced.skipOne (by decide) (by decide)).advanceWhile agree_isDigit
      (by decide)
    rw [List.append_assoc, List.append_assoc, List.append_assoc, List.singleton_append,
      List.singleton_append] at hlast
    rw [List.cons_append] at htext
    rw [if_pos hnone, if_neg hnone, hlast.lexeme? hstart, Option.map_some,
      String.toList_ofList, htext, hfraction]
    refine ⟨_, rfl, ?_, rfl, rfl⟩
    generalize cs.takeWhile Char.isDigit = w at hcs hlast
    subst hcs
    rw [Nat.add_assoc, take_of_eq_append rfl, List.drop_length_add_append, Nat.add_comm 1,
      List.take_succ_cons, List.drop_succ_cons, take_length_takeWhile, drop_length_takeWhile]
    exact hlast

theorem word_reached {c : Char} (h : Placed source (before ++ [c]) cs s)
    (hstart : s.start = (encode before).length) :
    ∃ s', s.word source = some ((afterLetter c cs).1, s')
      ∧ Reached source before (c :: cs.take (afterLetter c cs).2) (cs.drop (afterLetter c cs).2)
        s s' := by
  have hplaced := h.advanceWhile agree_continuesWord (by decide)
  rw [List.append_assoc] at hplaced
  refine ⟨s.advanceWhile source continuesWord, ?_, ?_, rfl, rfl⟩
  · simp only [word, hplaced.lexeme? hstart]
    rfl
  · simp only [afterLetter, take_length_takeWhile, drop_length_takeWhile]
    exact hplaced

/-- A character that starts nothing is taken with all its bytes. -/
theorem unexpected_reached {c : Char} {b : UInt8} {bs : List UInt8}
    (h : Placed source before (c :: cs) s) (hbytes : String.utf8EncodeChar c = b :: bs)
    (hc : c ≠ '\n') :
    ∃ s', (s.begin.skip 1).unexpected source = some (.fault (.unexpectedCharacter c), s')
      ∧ Reached source before [c] cs s.begin s' := by
  have hrest : (s.begin.skip 1).rest source = bs ++ encode cs := by
    have hrest := h.rest_eq
    rw [encode_cons, hbytes] at hrest
    show (bytes source).drop (s.current + 1) = _
    rw [← List.drop_drop, show (bytes source).drop s.current = _ from hrest]
    rfl
  have hplaced : Placed source (before ++ [c]) cs
      ((s.begin.skip 1).advanceWhile source isContinuation) := by
    have hlength : (encode [c]).length = 1 + bs.length := by
      rw [encode_cons, hbytes, encode_nil, List.append_nil, List.length_cons, Nat.add_comm]
    have hskip := h.skip (w := [c]) fun hmem => hc (List.mem_singleton.1 hmem).symm
    rw [hlength] at hskip
    rw [advanceWhile, hrest, takeWhile_isContinuation hbytes]
    exact ⟨hskip.text, (Nat.add_assoc _ _ _).trans hskip.current, hskip.line⟩
  refine ⟨_, ?_, hplaced, rfl, rfl⟩
  simp only [unexpected, hplaced.lexeme? h.current, Option.map_some, String.toList_ofList,
    List.headD_cons]

theorem operator_reached {c : Char} (h : Placed source (before ++ [c]) cs s) (short long : Kind) :
    ∃ s', (if s.byteAt source 0 = byte '=' then some (Piece.token long, s.skip 1)
        else some (.token short, s)) = some ((withEqual short long cs).1, s')
      ∧ Reached source before (c :: cs.take (withEqual short long cs).2)
        (cs.drop (withEqual short long cs).2) s s' := by
  simp only [withEqual, h.byteAt_zero_eq (d := '=') (by decide) (by decide)]
  by_cases hhead : cs.head? = some '='
  · obtain ⟨ds, rfl⟩ : ∃ ds, cs = '=' :: ds := List.head?_eq_some_iff.1 hhead
    have hlong := h.skipOne (by decide) (by decide)
    rw [List.append_assoc] at hlong
    rw [if_pos hhead, if_pos hhead]
    exact ⟨_, rfl, hlong, rfl, rfl⟩
  · rw [if_neg hhead, if_neg hhead]
    exact ⟨_, rfl, h, rfl, rfl⟩

theorem slash_reached (h : Placed source (before ++ ['/']) cs s) :
    ∃ s', (if s.byteAt source 0 = byte '/' then
          some (Piece.skipped, s.advanceWhile source (· ≠ byte '\n'))
        else some (.token .slash, s)) = some ((afterSlash cs).1, s')
      ∧ Reached source before ('/' :: cs.take (afterSlash cs).2) (cs.drop (afterSlash cs).2) s s' := by
  simp only [afterSlash, h.byteAt_zero_eq (d := '/') (by decide) (by decide)]
  by_cases hhead : cs.head? = some '/'
  · have hcomment := h.advanceWhile (.other (d := '\n') (by decide)) (by decide)
    rw [List.append_assoc] at hcomment
    rw [if_pos hhead, if_pos hhead, take_length_takeWhile, drop_length_takeWhile]
    exact ⟨_, rfl, hcomment, rfl, rfl⟩
  · rw [if_neg hhead, if_neg hhead]
    exact ⟨_, rfl, h, rfl, rfl⟩

/-- The next piece is that of the next characters. -/
theorem pieceAfter_reached {c : Char} {b : UInt8} {bs : List UInt8}
    (h : Placed source before (c :: cs) s) (hbytes : String.utf8EncodeChar c = b :: bs) :
    ∃ s', (s.begin.skip 1).pieceAfter source b = some ((front c cs).1, s')
      ∧ Reached source before (c :: cs.take (front c cs).2) (cs.drop (front c cs).2)
        s.begin s' := by
  have hb : b ∈ String.utf8EncodeChar c := by simp [hbytes]
  have hbegin : Placed source before (c :: cs) s.begin := ⟨h.text, h.current, h.line⟩
  have hstart : (s.begin.skip 1).start = (encode before).length := h.current
  have hsame {d : Char} (hd : d.toNat < 128) : b = byte d ↔ c = d :=
    decide_eq_decide.1 (Agree.single hd c b hb)
  have hfirst (hd : c.toNat < 128) (hne : c ≠ '\n') :
      Placed source (before ++ [c]) cs (s.begin.skip 1) := hbegin.skipOne hd hne
  unfold pieceAfter front
  rw [Agree.lookup_bytes (by decide) hb, Agree.lookup_bytes (by decide) hb]
  cases hm : marks.lookup c with
  | some kind =>
    have hall : ∀ e ∈ marks, e.1.toNat < 128 ∧ e.1 ≠ '\n' := by decide
    obtain ⟨hlow, hne⟩ := hall _ (mem_of_lookup hm)
    exact ⟨_, rfl, hfirst hlow hne, rfl, rfl⟩
  | none =>
    cases ho : operators.lookup c with
    | some kinds =>
      have hall : ∀ e ∈ operators, e.1.toNat < 128 ∧ e.1 ≠ '\n' := by decide
      obtain ⟨hlow, hne⟩ := hall _ (mem_of_lookup ho)
      obtain ⟨s', hs', hreached⟩ := operator_reached (hfirst hlow hne) kinds.1 kinds.2
      exact ⟨s', hs', hreached.of_skip⟩
    | none =>
      simp only [hsame (d := '\n') (by decide), hsame (d := ' ') (by decide),
        hsame (d := '\r') (by decide), hsame (d := '\t') (by decide),
        hsame (d := '/') (by decide), hsame (d := '"') (by decide), agree_isDigit c b hb,
        agree_startsWord c b hb]
      by_cases hnewline : c = '\n'
      · subst hnewline
        have hlines : Placed source (before ++ ['\n']) cs ((s.begin.skip 1).skipLines 0 1) :=
          hbegin.skipLines (w := ['\n'])
        exact ⟨_, rfl, hlines, rfl, rfl⟩
      rw [if_neg hnewline]
      by_cases hgap : c = ' ' ∨ c = '\r' ∨ c = '\t'
      · have hmem : c ∈ gaps := by
          rcases hgap with rfl | rfl | rfl <;> decide
        have hlow : c.toNat < 128 := by
          rcases hgap with rfl | rfl | rfl <;> decide
        rw [if_pos hgap, if_pos hmem]
        exact ⟨_, rfl, hfirst hlow hnewline, rfl, rfl⟩
      have hmem : c ∉ gaps := by
        simp only [gaps, List.mem_cons, List.not_mem_nil, or_false]
        grind
      rw [if_neg hgap, if_neg hmem]
      by_cases hslash : c = '/'
      · subst hslash
        rw [if_pos rfl, if_pos rfl]
        obtain ⟨s', hs', hreached⟩ := slash_reached (hfirst (by decide) hnewline)
        exact ⟨s', hs', hreached.of_skip⟩
      rw [if_neg hslash, if_neg hslash]
      by_cases hquote : c = '"'
      · subst hquote
        rw [if_pos rfl, if_pos rfl]
        obtain ⟨s', hs', hreached⟩ := string_reached (hfirst (by decide) hnewline) hstart
        exact ⟨s', hs', hreached.of_skip⟩
      rw [if_neg hquote, if_neg hquote]
      by_cases hdigit : c.isDigit = true
      · rw [if_pos hdigit, if_pos hdigit]
        obtain ⟨s', hs', hreached⟩ :=
          number_reached (hfirst (lt_of_isDigit hdigit) hnewline) hdigit hstart
        exact ⟨s', hs', hreached.of_skip⟩
      rw [if_neg hdigit, if_neg hdigit]
      by_cases hletter : Lexer.startsWord c = true
      · rw [if_pos hletter, if_pos hletter]
        obtain ⟨s', hs', hreached⟩ :=
          word_reached (hfirst (lt_of_startsWord hletter) hnewline) hstart
        exact ⟨s', hs', hreached.of_skip⟩
      rw [if_neg hletter, if_neg hletter]
      exact unexpected_reached h hbytes hnewline

/-! ### One item after the other -/

/-- What the cursor has still to give out. -/
inductive Owes (source : String) : Scanner → List Item → Prop where
  | items {before cs : List Char} {s : Scanner} (h : Placed source before cs s)
      (hdone : s.done = false) : Owes source s (itemsFrom s.line cs)
  | nothing {before : List Char} {s : Scanner} (h : Placed source before [] s)
      (hdone : s.done = true) : Owes source s []

theorem next?_of_nil (h : s.rest source = []) :
    s.next? source = if s.done then some (none, s)
      else some (some (.token ⟨.eof, "", s.line⟩), { s with done := true }) := by
  rw [next?]
  split
  · rfl
  · rename_i hcons
    rw [h] at hcons
    cases hcons

/-- What is given out after a piece. -/
def nextAfter? (source : String) (s : Scanner) : Piece → Option (Option Item × Scanner)
  | .skipped => s.next? source
  | .fault cause => some (some (.fault s.line cause), s)
  | .token kind => (s.lexeme? source).map fun text => (some (.token ⟨kind, text, s.line⟩), s)

theorem next?_of_cons {b : UInt8} {bs : List UInt8} {piece : Piece} {s' : Scanner}
    (h : s.rest source = b :: bs)
    (hpiece : (s.begin.skip 1).pieceAfter source b = some (piece, s')) :
    s.next? source = s'.nextAfter? source piece := by
  rw [next?]
  split
  · rename_i hnil
    rw [h] at hnil
    cases hnil
  · rename_i b' bs' hcons
    obtain ⟨rfl, rfl⟩ := List.cons.inj (h.symm.trans hcons)
    split
    all_goals
      rename_i hnext
      rw [hpiece] at hnext
      cases hnext
    all_goals rfl

/-- An item that is given out: it is on the line where the cursor stands, and what is between the
ends of a token are its characters. -/
structure Gives (source : String) (s s' : Scanner) (item : Item) : Prop where
  line : item.line = s'.line
  lexeme : ∀ t, item = .token t → t.kind ≠ .eof →
    s.current ≤ s'.start ∧ s'.lexeme? source = some t.lexeme

/-- The next item of the text is given out, and the others are still owed. -/
theorem next?_of_placed (h : Placed source before cs s) (hdone : s.done = false) :
    ∃ item later s', itemsFrom s.line cs = item :: later
      ∧ s.next? source = some (some item, s') ∧ Owes source s' later
      ∧ Gives source s s' item := by
  induction hn : cs.length using Nat.strongRecOn generalizing before cs s with
  | ind n ih =>
    cases cs with
    | nil =>
      have hrest := h.rest_eq
      refine ⟨_, [], { s with done := true }, by rw [itemsFrom], ?_, ?_, rfl, ?_⟩
      · rw [next?_of_nil hrest, hdone]
        rfl
      · exact .nothing ⟨h.text, h.current, h.line⟩ rfl
      · rintro _ ⟨⟩ hne
        exact absurd rfl hne
    | cons c cs =>
      obtain ⟨b, bs, hbytes⟩ := List.exists_cons_of_ne_nil (String.utf8EncodeChar_ne_nil (c := c))
      have hrest : s.rest source = b :: (bs ++ encode cs) := by
        rw [h.rest_eq, encode_cons, hbytes]
        rfl
      obtain ⟨s₁, hpiece, hreached⟩ := pieceAfter_reached h hbytes
      have hline : s₁.line = s.line + (c :: cs.take (front c cs).2).count '\n' := by
        rw [hreached.placed.line, h.line, List.count_append, Nat.add_assoc]
      have hdone₁ : s₁.done = false := hreached.done.trans hdone
      have hlexeme := hreached.placed.lexeme? (hreached.start.trans h.current)
      have hitems : itemsFrom s.line (c :: cs)
          = ((front c cs).1.item? (c :: cs.take (front c cs).2) s₁.line).toList
            ++ itemsFrom s₁.line (cs.drop (front c cs).2) := by
        rw [itemsFrom, hline]
      rw [next?_of_cons hrest hpiece, hitems]
      cases hkind : (front c cs).1 with
      | skipped =>
        have hlt := length_drop_front c cs
        obtain ⟨item, later, s', hnext, hcall, howes, hgives⟩ :=
          ih _ (hn ▸ hlt) hreached.placed hdone₁ rfl
        refine ⟨item, later, s', hnext, hcall, howes, hgives.line, fun t ht hne => ?_⟩
        obtain ⟨hle, hslice⟩ := hgives.lexeme t ht hne
        refine ⟨Nat.le_trans ?_ hle, hslice⟩
        exact Nat.le_trans (Nat.le_succ _) (current_le_of_pieceAfter source _ hpiece)
      | fault cause =>
        exact ⟨_, _, s₁, rfl, rfl, .items hreached.placed hdone₁, rfl, fun t ht => by cases ht⟩
      | token kind =>
        refine ⟨_, _, s₁, rfl, by rw [nextAfter?, hlexeme]; rfl,
          .items hreached.placed hdone₁, rfl, ?_⟩
        rintro _ ⟨⟩ -
        exact ⟨Nat.le_of_eq hreached.start.symm, hlexeme⟩

/-- One item after the other is given out, and nothing after the last one. -/
theorem Owes.next {owed : List Item} (h : Owes source s owed) :
    ∃ s', s.next? source = some (owed.head?, s') ∧ Owes source s' owed.tail
      ∧ ∀ item, owed.head? = some item → Gives source s s' item := by
  cases h with
  | items h hdone =>
    obtain ⟨item, later, s', hitems, hcall, howes, hgives⟩ := next?_of_placed h hdone
    rw [hitems]
    refine ⟨s', hcall, howes, ?_⟩
    rintro _ ⟨⟩
    exact hgives
  | nothing h hdone =>
    refine ⟨s, ?_, .nothing h hdone, by simp⟩
    rw [next?_of_nil h.rest_eq, if_pos hdone]
    rfl

theorem Owes.placed {owed : List Item} (h : Owes source s owed) :
    ∃ before after, Placed source before after s := by
  cases h with
  | items h _ => exact ⟨_, _, h⟩
  | nothing h _ => exact ⟨_, _, h⟩

/-- The scanner after a number of calls. -/
def after? (source : String) : Nat → Option Scanner
  | 0 => some {}
  | k + 1 => (after? source k).bind fun s => (s.next? source).map Prod.snd

/-- After any number of calls the scanner owes the items that are left. -/
theorem after?_owes (source : String) (k : Nat) :
    ∃ s, after? source k = some s ∧ Owes source s ((items source).drop k) := by
  induction k with
  | zero =>
    have hplaced : Placed source [] source.toList {} := ⟨rfl, rfl, rfl⟩
    exact ⟨{}, rfl, .items hplaced rfl⟩
  | succ k ih =>
    obtain ⟨s, hs, howes⟩ := ih
    obtain ⟨s', hcall, hnext, -⟩ := howes.next
    refine ⟨s', ?_, ?_⟩
    · rw [after?, hs, Option.bind_some, hcall]
      rfl
    · rwa [List.tail_drop] at hnext

/-- A call of the scanner, which stands between two characters, on the line after the newlines before
it. -/
structure Calls (source : String) (s s' : Scanner) (item? : Option Item) : Prop where
  next : s.next? source = some (item?, s')
  isValid : String.Pos.Raw.IsValid source ⟨s.current⟩
  line : s.line = 1 + ((bytes source).take s.current).count (byte '\n')
  gives : ∀ item, item? = some item → Gives source s s' item

/-- The calls of a scanner give the items of the text one after the other, and nothing after that. -/
theorem calls (source : String) (k : Nat) :
    ∃ s s', after? source k = some s ∧ Calls source s s' (items source)[k]? := by
  obtain ⟨s, hs, howes⟩ := after?_owes source k
  obtain ⟨s', hcall, -, hgives⟩ := howes.next
  obtain ⟨before, after, h⟩ := howes.placed
  rw [List.head?_drop] at hcall hgives
  refine ⟨s, s', hs, hcall, ?_, ?_, hgives⟩
  · rw [h.current]
    exact isValid_of_append h.text
  · rw [h.line, h.current, bytes_eq_encode, h.text, encode_append, List.take_left, count_encode]

end Scanner

namespace Lexer

/-- What is known of the items of a text: they are those of the longest pieces, the last one and only
this one is the end of the program, and a scanner gives out these items and nothing after them. -/
structure Munches (source : String) : Prop where
  lexes : ∀ found, Lexes [] source.toList found ↔ found = items source
  ends : ∃ body, items source = body ++ [.token ⟨.eof, "", 1 + source.toList.count '\n'⟩]
    ∧ ∀ t, .token t ∈ body → t.kind ≠ .eof
  scans : ∀ k, ∃ s s', Scanner.after? source k = some s
    ∧ Scanner.Calls source s s' (items source)[k]?

/-- Every text is read by its longest pieces, also byte by byte. -/
theorem munches (source : String) : Munches source :=
  ⟨lexes_iff source, (lexes_itemsFrom [] source.toList).ends, Scanner.calls source⟩

end Lexer

end Lox
