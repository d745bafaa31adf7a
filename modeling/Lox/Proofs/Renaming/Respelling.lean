import Lox.Proofs.Lexing.Joined
import Lox.Proofs.Lexing.Longest
import Lox.Proofs.Renaming.Readings

/-!
Texts with another word in place of some identifiers. What a piece is depends on the characters after it
only as far as they could make it longer, and two words that follow it are alike in this
(`Alike.front_eq`). So where some tokens are to have the new name, there is a text with these tokens, on
the same lines (`tokens_respelled`).
-/

namespace Lox

namespace Lexer

/-- The second text is the first one with the new word in place of some of its identifiers that are the
old word. -/
inductive Respelled (old new : List Char) : List Char → List Char → Prop where
  | done : Respelled old new [] []
  | keep {w rest rest' : List Char} {piece : Piece} (h : Longest (w ++ rest) w piece)
      (hrest : Respelled old new rest rest') : Respelled old new (w ++ rest) (w ++ rest')
  | replace {rest rest' : List Char} (h : Longest (old ++ rest) old (.token .identifier))
      (hrest : Respelled old new rest rest') : Respelled old new (old ++ rest) (new ++ rest')

/-! ### What follows a piece -/

/-- The texts are the same up to where a word starts in both of them. -/
inductive Alike : List Char → List Char → Prop where
  | nil : Alike [] []
  | same (c : Char) {cs cs' : List Char} (h : Alike cs cs') : Alike (c :: cs) (c :: cs')
  | word {c c' : Char} {cs cs' : List Char} (hc : startsWord c) (hc' : startsWord c') :
      Alike (c :: cs) (c' :: cs')

theorem isDigit_of_startsWord (c : Char) (hc : startsWord c) : c.isDigit = false :=
  eq_false_of_ne_true (not_isDigit_of_startsWord hc)

theorem continuesWord_of_startsWord (c : Char) (hc : startsWord c) : continuesWord c = true := by
  rw [startsWord, Bool.or_eq_true] at hc
  rw [continuesWord, Char.isAlphanum, Bool.or_eq_true, Bool.or_eq_true]
  exact hc.imp_left .inl

/-- A part of one class that ends before a text is all of this class, and the text does not go on with
it. -/
theorem all_of_takeWhile_append {p : Char → Bool} {cs rest : List Char}
    (h : ((cs ++ rest).takeWhile p).length = cs.length) :
    (∀ c ∈ cs, p c = true) ∧ rest.takeWhile p = [] := by
  have hcs : (cs ++ rest).takeWhile p = cs :=
    (List.prefix_of_prefix_length_le (List.takeWhile_prefix p) (List.prefix_append cs rest)
      h.le).eq_of_length h
  have hall : ∀ c ∈ cs, p c = true := fun c hc => mem_takeWhile (hcs ▸ hc)
  rw [List.takeWhile_append_of_pos hall] at hcs
  exact ⟨hall, List.append_right_eq_self.1 hcs⟩

namespace Alike

variable {rest rest' cs : List Char} {c : Char} {p : Char → Bool} {v : Bool} {piece : Piece}

theorem append (h : Alike rest rest') (cs : List Char) : Alike (cs ++ rest) (cs ++ rest') := by
  induction cs with
  | nil => exact h
  | cons c cs ih => exact .same c ih

theorem head? (h : Alike rest rest') {d : Char} (hd : ¬ startsWord d) :
    rest.head? = some d ↔ rest'.head? = some d := by
  cases h with
  | nil | same => rfl
  | word hc hc' =>
    constructor
    · rintro ⟨⟩
      exact absurd hc hd
    · rintro ⟨⟩
      exact absurd hc' hd

theorem takeWhile_eq_nil (h : Alike rest rest') (hp : ∀ c, startsWord c → p c = v)
    (ht : rest.takeWhile p = []) : rest'.takeWhile p = [] := by
  have hhead {c : Char} {cs : List Char} (h : p c = false) : (c :: cs).takeWhile p = [] :=
    List.takeWhile_cons_of_neg (by rw [h]; exact Bool.false_ne_true)
  have hfirst {c : Char} {cs : List Char} (h : (c :: cs).takeWhile p = []) : p c = false := by
    by_contra hc
    rw [List.takeWhile_cons_of_pos (Bool.of_not_eq_false hc)] at h
    cases h
  cases h with
  | nil => rfl
  | same c => exact hhead (hfirst ht)
  | word hc hc' => exact hhead ((hp _ hc').trans ((hp _ hc).symm.trans (hfirst ht)))

/-- A part of one class that ends before one of the texts ends before the other one too. -/
theorem takeWhile_append (h : Alike rest rest') (hp : ∀ c, startsWord c → p c = v)
    (ht : ((cs ++ rest).takeWhile p).length = cs.length) :
    (cs ++ rest).takeWhile p = cs ∧ (cs ++ rest').takeWhile p = cs := by
  obtain ⟨hcs, hrest⟩ := all_of_takeWhile_append ht
  rw [List.takeWhile_append_of_pos hcs, List.takeWhile_append_of_pos hcs, hrest,
    h.takeWhile_eq_nil hp hrest, List.append_nil]
  exact ⟨rfl, rfl⟩

theorem fraction_eq_nil (h : Alike rest rest') (ht : fraction rest = []) :
    fraction rest' = [] := by
  by_contra hne
  obtain ⟨digits', rfl, hdigits'⟩ := exists_of_fraction hne
  obtain ⟨digits, rfl⟩ : ∃ digits, rest = '.' :: digits :=
    List.head?_eq_some_iff.1 ((h.head? (by decide)).2 rfl)
  cases h with
  | same _ h =>
    exact hne (hdigits'.trans (h.takeWhile_eq_nil isDigit_of_startsWord ht))
  | word hc => exact absurd hc (by decide)

theorem withEqual_eq (h : Alike rest rest') {short long : Kind}
    (ht : withEqual short long (cs ++ rest) = (piece, cs.length)) :
    withEqual short long (cs ++ rest') = (piece, cs.length) := by
  cases cs with
  | nil =>
    rw [← ht]
    simp only [withEqual, List.nil_append, h.head? (show ¬ startsWord '=' by decide)]
  | cons => exact ht

theorem afterSlash_eq (h : Alike rest rest') (ht : afterSlash (cs ++ rest) = (piece, cs.length)) :
    afterSlash (cs ++ rest') = (piece, cs.length) := by
  have hp : ∀ c, startsWord c → decide (c ≠ '\n') = true := by
    rintro c hc
    refine decide_eq_true ?_
    rintro rfl
    exact absurd hc (by decide)
  have hhead : (cs ++ rest).head? = some '/' ↔ (cs ++ rest').head? = some '/' :=
    (h.append cs).head? (by decide)
  unfold afterSlash at ht ⊢
  by_cases hslash : (cs ++ rest).head? = some '/'
  · rw [if_pos hslash, Prod.mk.injEq] at ht
    rw [if_pos (hhead.1 hslash), (h.takeWhile_append hp ht.2).2, ht.1]
  · rw [if_neg hslash] at ht
    rwa [if_neg fun h => hslash (hhead.2 h)]

theorem afterQuote_eq (ht : afterQuote (cs ++ rest) = (piece, cs.length))
    (hf : piece.isFault = false) : afterQuote (cs ++ rest') = (piece, cs.length) := by
  simp only [afterQuote] at ht
  split at ht
  · rename_i hlt
    obtain ⟨rfl, hlength⟩ := Prod.mk.inj ht
    obtain ⟨d, ds, hsplit, hd⟩ := exists_of_takeWhile_lt hlt
    obtain rfl : d = '"' := by simpa using hd
    generalize hcontents : (cs ++ rest).takeWhile (· ≠ '"') = contents at hsplit hlength ⊢
    have hall : ∀ c ∈ contents, decide (c ≠ '"') = true :=
      fun c hc => mem_takeWhile (hcontents ▸ hc)
    obtain ⟨rfl, -⟩ : cs = contents ++ ['"'] ∧ rest = ds := by
      refine List.append_inj ?_ ?_
      · rw [hsplit, List.append_assoc]
        rfl
      · rw [List.length_append, ← hlength]
        rfl
    have htake : (contents ++ ['"'] ++ rest').takeWhile (· ≠ '"') = contents := by
      rw [List.append_assoc]
      exact takeWhile_append_of_all hall (by decide) rest'
    rw [afterQuote, htake]
    simp
  · rw [← (Prod.mk.inj ht).1] at hf
    cases hf

theorem afterDigit_eq (h : Alike rest rest') (ht : afterDigit c (cs ++ rest) = (piece, cs.length)) :
    afterDigit c (cs ++ rest') = (piece, cs.length) := by
  have hends (hrest : rest.takeWhile Char.isDigit = []) : rest'.takeWhile Char.isDigit = [] :=
    h.takeWhile_eq_nil isDigit_of_startsWord hrest
  have hlength : _ = cs.length := congrArg Prod.snd ht
  simp only [afterDigit] at hlength
  by_cases hnone : fraction ((cs ++ rest).dropWhile Char.isDigit) = []
  · rw [if_pos hnone] at hlength
    obtain ⟨hcs, hrest⟩ := all_of_takeWhile_append hlength
    have hdrop : (cs ++ rest).dropWhile Char.isDigit = rest := by
      have hsplit := List.takeWhile_append_dropWhile (p := Char.isDigit) (l := rest)
      rwa [List.dropWhile_append_of_pos hcs, ← List.nil_append (rest.dropWhile _), ← hrest]
    rw [hdrop] at hnone
    rw [afterDigit_whole c rest' hcs (hends hrest) (h.fraction_eq_nil hnone), ← ht,
      afterDigit_whole c rest hcs hrest hnone]
  · rw [if_neg hnone] at hlength
    obtain ⟨digits, hdrop, hfraction⟩ := exists_of_fraction hnone
    have hsplit := List.takeWhile_append_dropWhile (p := Char.isDigit) (l := cs ++ rest)
    have hdigits := List.takeWhile_append_dropWhile (p := Char.isDigit) (l := digits)
    rw [hdrop, ← hdigits] at hsplit
    rw [hfraction] at hnone hlength
    have hwhole : ∀ d ∈ (cs ++ rest).takeWhile Char.isDigit, d.isDigit :=
      fun d hd => mem_takeWhile hd
    have hds : ∀ d ∈ digits.takeWhile Char.isDigit, d.isDigit := fun d hd => mem_takeWhile hd
    generalize (cs ++ rest).takeWhile Char.isDigit = whole at hsplit hlength hwhole
    obtain ⟨rfl, hrest⟩ : cs = whole ++ '.' :: digits.takeWhile Char.isDigit
        ∧ rest = digits.dropWhile Char.isDigit := by
      refine List.append_inj ?_ ?_
      · rw [← hsplit, List.append_assoc]
        rfl
      · rw [← hlength, List.length_append, List.length_cons]
        omega
    rw [← hrest] at hdigits
    have hrest' : rest.takeWhile Char.isDigit = [] :=
      (all_of_takeWhile_append (by rw [hdigits])).2
    rw [afterDigit_decimal c rest' hwhole hnone hds (hends hrest'), ← ht,
      afterDigit_decimal c rest hwhole hnone hds hrest']

/-- A piece that ends before one of the texts ends before the other one too. -/
theorem front_eq (h : Alike rest rest') (ht : front c (cs ++ rest) = (piece, cs.length))
    (hf : piece.isFault = false) : front c (cs ++ rest') = (piece, cs.length) := by
  have hstarts := starts c
  generalize front c = f at hstarts ht ⊢
  cases hstarts with
  | mark | gap => exact ht
  | operator => exact h.withEqual_eq ht
  | slash => exact h.afterSlash_eq ht
  | quote => exact afterQuote_eq ht hf
  | digit => exact h.afterDigit_eq ht
  | letter =>
    simp only [afterLetter, Prod.mk.injEq] at ht ⊢
    obtain ⟨hword, hword'⟩ := h.takeWhile_append continuesWord_of_startsWord ht.2
    rw [hword']
    rwa [hword] at ht
  | other =>
    rw [← (Prod.mk.inj ht).1] at hf
    cases hf

end Alike

/-! ### Identifiers -/

/-- An identifier is a word, and only a word. -/
theorem exists_of_identifier {w : List Char} (h : Lexeme w .identifier) :
    ∃ c cs, w = c :: cs ∧ startsWord c ∧ (∀ d ∈ cs, continuesWord d)
      ∧ Kind.ofWord (String.ofList w) = .identifier := by
  have hmarks : ∀ e ∈ marks, e.2 ≠ .identifier := by decide
  have hoperators : ∀ e ∈ operators, e.2.1 ≠ .identifier ∧ e.2.2 ≠ .identifier := by decide
  have hkeywords : ∀ e ∈ keywords, e.2 ≠ .identifier := by decide
  have hfront := front_of_lexeme h
  cases h with
  | mark h => exact absurd rfl (hmarks _ h)
  | short h => exact absurd rfl (hoperators _ h).1
  | long h => exact absurd rfl (hoperators _ h).2
  | keyword h => exact absurd rfl (hkeywords _ h)
  | @identifier c cs hc hcs h =>
    obtain ⟨c', cs', hword, hfront⟩ := hfront
    cases hword
    rw [front_word hc hcs, Prod.mk.injEq, Piece.token.injEq] at hfront
    exact ⟨c, cs, rfl, hc, hcs, hfront.1⟩

theorem ne_of_identifier {word : String} (h : Lexeme word.toList .identifier) :
    word ≠ "this" ∧ word ≠ "super" := by
  obtain ⟨_, _, -, -, -, hword⟩ := exists_of_identifier h
  rw [String.ofList_toList] at hword
  constructor <;> rintro rfl <;> exact absurd hword (by decide)

theorem count_newline_of_identifier {w : List Char} (h : Lexeme w .identifier) :
    w.count '\n' = 0 := by
  obtain ⟨c, cs, rfl, hc, hcs, -⟩ := exists_of_identifier h
  refine List.count_eq_zero.2 fun hmem => ?_
  rcases List.mem_cons.1 hmem with rfl | hmem
  · exact absurd hc (by decide)
  · exact absurd (hcs _ hmem) (by decide)

/-- Where an identifier ends before a text, another one ends before a text that is alike. -/
theorem Longest.front_identifier {old new rest rest' : List Char}
    (h : Longest (old ++ rest) old (.token .identifier)) (hnew : Lexeme new .identifier)
    (hrest : Alike rest rest') : ∃ c cs, new = c :: cs ∧ Alike (old ++ rest) (new ++ rest')
      ∧ Lexer.front c (cs ++ rest') = (.token .identifier, cs.length) := by
  obtain ⟨d, ds, rfl, hfront⟩ := h.front_eq
  obtain ⟨c, cs, rfl, hc, hcs, hword⟩ := exists_of_identifier hnew
  have hd : startsWord d := by
    cases h.isPiece with
    | token h =>
      obtain ⟨_, _, hd, hstart, -⟩ := exists_of_identifier h
      exact (List.cons.inj hd).1 ▸ hstart
  have hends : rest.takeWhile continuesWord = [] := by
    rw [(Starts.letter hd).front_eq, afterLetter, Prod.mk.injEq] at hfront
    exact (all_of_takeWhile_append hfront.2).2
  refine ⟨c, cs, rfl, .word hd hc, ?_⟩
  rw [(Starts.letter hc).front_eq, afterLetter, List.takeWhile_append_of_pos hcs,
    hrest.takeWhile_eq_nil continuesWord_of_startsWord hends, List.append_nil, hword]

/-! ### Items of texts with other words -/

section

variable {R : Renaming} {before text : List Char} {found : List Item} {us : List Token}

/-- Where tokens are to have the new name, there is a text that has these tokens. -/
theorem Lexes.respelled (h : Lexes before text found) (hnew : Lexeme R.new.toList .identifier)
    (hfound : ∀ item ∈ found, item.diagnostic? = none)
    (hus : List.Forall₂ R.Respelled (found.filterMap Item.token?) us) :
    ∃ text', Respelled R.old.toList R.new.toList text text' ∧ Alike text text'
      ∧ itemsFrom (1 + before.count '\n') text' = us.map Item.token := by
  induction h generalizing us with
  | done before =>
    obtain ⟨u, us, hu, hrest, rfl⟩ := List.forall₂_cons_left_iff.1 hus
    obtain rfl := List.forall₂_nil_left_iff.1 hrest
    refine ⟨[], .done, .nil, ?_⟩
    rcases hu with rfl | ⟨hkind, -, -⟩
    · rw [itemsFrom]
      rfl
    · cases hkind
  | @skip before w rest items h _ ih =>
    obtain ⟨text', htext, halike, hitems⟩ := ih hfound hus
    obtain ⟨c, cs, rfl, hfront⟩ := h.front_eq
    refine ⟨c :: cs ++ text', .keep h htext, halike.append _, ?_⟩
    rw [itemsFrom_piece (halike.front_eq hfront rfl), Nat.add_assoc, ← List.count_append, hitems]
    rfl
  | @token before w rest kind items h _ ih =>
    rw [List.forall_mem_cons] at hfound
    obtain ⟨u, us, hu, htokens, rfl⟩ := List.forall₂_cons_left_iff.1 hus
    obtain ⟨text', htext, halike, hitems⟩ := ih hfound.2 htokens
    rcases hu with rfl | ⟨hkind, hold, rfl⟩
    · obtain ⟨c, cs, rfl, hfront⟩ := h.front_eq
      refine ⟨c :: cs ++ text', .keep h htext, halike.append _, ?_⟩
      rw [itemsFrom_piece (halike.front_eq hfront rfl), Nat.add_assoc, ← List.count_append, hitems]
      rfl
    · obtain rfl : kind = .identifier := hkind
      obtain rfl : w = R.old.toList := by
        rw [← hold]
        simp
      obtain ⟨c, cs, hword, hstart, hfront⟩ := h.front_identifier hnew halike
      refine ⟨R.new.toList ++ text', .replace h htext, hstart, ?_⟩
      have hold' : R.old.toList.count '\n' = 0 := by
        cases h.isPiece with
        | token h => exact count_newline_of_identifier h
      have hlines : 1 + (before ++ R.old.toList).count '\n' = 1 + before.count '\n' := by
        rw [List.count_append, hold']
        rfl
      rw [hlines] at hitems ⊢
      rw [hword, itemsFrom_piece hfront, ← hword, count_newline_of_identifier hnew, Nat.add_zero,
        hitems, Piece.item?, String.ofList_toList]
      rfl
  | unexpected => cases hfound _ List.mem_cons_self
  | unterminated => cases hfound _ List.mem_cons_self

end

end Lexer

/-- Where some tokens of a program that are the old name are to be the new one, there is a program with
these tokens, in which the new name stands for some of the identifiers that are the old one. -/
theorem tokens_respelled {R : Renaming} {source : String} {ts us : List Token}
    (h : tokens source = .ok ts) (hnew : Lexer.Lexeme R.new.toList .identifier)
    (hus : List.Forall₂ R.Respelled ts us) :
    ∃ source', Lexer.Respelled R.old.toList R.new.toList source.toList source'.toList
      ∧ tokens source' = .ok us := by
  rw [tokens_eq_ok_iff] at h
  obtain ⟨hfaults, rfl⟩ := h
  obtain ⟨text', htext, -, hitems⟩ :=
    (Lexer.lexes_itemsFrom [] source.toList).respelled hnew hfaults hus
  refine ⟨String.ofList text', by rwa [String.toList_ofList], tokens_eq_ok_iff.2 ?_⟩
  have hitems : Lexer.items (String.ofList text') = us.map Lexer.Item.token := by
    rw [Lexer.items, String.toList_ofList]
    exact hitems
  rw [hitems]
  constructor
  · intro item hitem
    obtain ⟨t, -, rfl⟩ := List.mem_map.1 hitem
    rfl
  · rw [List.filterMap_map]
    exact List.filterMap_some

end Lox
