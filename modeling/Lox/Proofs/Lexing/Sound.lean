import Lox.Proofs.Tree.Proper
import Lox.Token.Lexer

/-!
Tokens that are read from a text are spelled as their kinds say (`tokens_sound`): a word is `this` or
`super` if and only if its kind is that of the keyword, so that no identifier is.
-/

namespace Lox

namespace Lexer

/-- The kinds that a word of letters may have. -/
def IsWord (k : Kind) : Bool :=
  k = .identifier || k = .kwThis || k = .kwSuper

theorem lookup_marks {c : Char} {k : Kind} (h : marks.lookup c = some k) : IsWord k = false := by
  have hall : ∀ p ∈ marks, IsWord p.2 = false := by decide
  rw [List.lookup_eq_some_iff] at h
  obtain ⟨l, l', hl, -⟩ := h
  exact hall (c, k) (by simp [hl])

theorem lookup_operators {c : Char} {short long : Kind}
    (h : operators.lookup c = some (short, long)) : IsWord short = false ∧ IsWord long = false := by
  have hall : ∀ p ∈ operators, IsWord p.2.1 = false ∧ IsWord p.2.2 = false := by decide
  rw [List.lookup_eq_some_iff] at h
  obtain ⟨l, l', hl, -⟩ := h
  exact hall (c, short, long) (by simp [hl])

theorem Token.sound_of_isWord {t : Token} (h : IsWord t.kind = false) : t.Sound := by
  refine ⟨fun hk => ?_, fun hk => ?_, fun hk => ?_⟩ <;> simp [IsWord, hk] at h

/-- A word with its kind. -/
theorem ofWord_sound (word : String) (line : Nat) : Token.Sound ⟨.ofWord word, word, line⟩ := by
  have hkeywords : ∀ p ∈ keywords, (p.2 = .kwThis → p.1 = "this") ∧ (p.2 = .kwSuper → p.1 = "super")
      ∧ p.2 ≠ .identifier := by decide
  unfold Kind.ofWord
  cases hl : keywords.lookup word with
  | none =>
    have hne : ∀ other ∈ keywords.map Prod.fst, word ≠ other := by
      rw [List.lookup_eq_none_iff] at hl
      intro other hother
      obtain ⟨p, hp, rfl⟩ := List.mem_map.1 hother
      simpa using hl p hp
    refine ⟨fun _ => ⟨hne "this" (by decide), hne "super" (by decide)⟩, fun hk => ?_, fun hk => ?_⟩ <;>
      cases hk
  | some k =>
    rw [List.lookup_eq_some_iff] at hl
    obtain ⟨l, l', hl, -⟩ := hl
    obtain ⟨hthis, hsuper, hne⟩ := hkeywords (word, k) (by simp [hl])
    exact ⟨fun hk => absurd hk hne, hthis, hsuper⟩

/-- Only what starts with a letter is a word. -/
theorem isWord_front {c : Char} {cs : List Char} {k : Kind} (h : (front c cs).1 = .token k) :
    IsWord k = false ∨ front c cs = afterLetter c cs := by
  unfold front at h ⊢
  split at h
  · rename_i kind hm
    cases h
    exact .inl (lookup_marks hm)
  · rename_i short long hm ho
    obtain ⟨hshort, hlong⟩ := lookup_operators ho
    unfold withEqual at h
    split at h <;> cases h
    · exact .inl hlong
    · exact .inl hshort
  · split at h
    · cases h
    rename_i hgap
    split at h
    · unfold afterSlash at h
      split at h <;> cases h
      exact .inl rfl
    rename_i hslash
    split at h
    · simp only [afterQuote] at h
      split at h <;> cases h
      exact .inl rfl
    rename_i hquote
    split at h
    · cases h
      exact .inl rfl
    rename_i hdigit
    split at h
    · rename_i hletter
      right
      simp only [if_neg hgap, if_neg hslash, if_neg hquote, if_neg hdigit, if_pos hletter]
    · cases h

/-- The token at the front of a text. -/
theorem front_sound {c : Char} {cs : List Char} {k : Kind} (h : (front c cs).1 = .token k)
    (line : Nat) : Token.Sound ⟨k, String.ofList (c :: cs.take (front c cs).2), line⟩ := by
  rcases isWord_front h with hk | hword
  · exact Token.sound_of_isWord hk
  · rw [hword] at h ⊢
    have htake : cs.take (cs.takeWhile continuesWord).length = cs.takeWhile continuesWord :=
      (List.prefix_iff_eq_take.1 (List.takeWhile_prefix _)).symm
    simp only [afterLetter] at h ⊢
    cases h
    rw [htake]
    exact ofWord_sound _ line

theorem itemsFrom_sound (line : Nat) (cs : List Char) {t : Token}
    (h : Item.token t ∈ itemsFrom line cs) : t.Sound := by
  induction line, cs using itemsFrom.induct with
  | case1 line =>
    rw [itemsFrom] at h
    obtain rfl : t = ⟨.eof, "", line⟩ := by simpa using h
    exact Token.sound_of_isWord rfl
  | case2 line c cs taken last ih =>
    rw [itemsFrom] at h
    rcases List.mem_append.1 h with h | h
    · rw [Option.mem_toList] at h
      unfold Piece.item? at h
      split at h
      · cases h
      · rename_i kind hk
        cases h
        exact front_sound hk _
      · cases h
    · exact ih h

end Lexer

/-- The tokens of a program are spelled as their kinds say. -/
theorem tokens_sound {source : String} {ts : List Token} (h : tokens source = .ok ts) :
    ∀ t ∈ ts, t.Sound := by
  simp only [tokens] at h
  split at h
  · cases h
    intro t ht
    obtain ⟨item, hitem, hi⟩ := List.mem_filterMap.1 ht
    cases item with
    | token t' =>
      cases hi
      exact Lexer.itemsFrom_sound 1 source.toList hitem
    | fault => cases hi
  · cases h

/-- The faults of a text that has some are found while it is read. -/
theorem tokens_eq_error {source : String} {faults : List Diagnostic}
    (h : tokens source = .error faults) : ∀ d ∈ faults, d.stage = .lexing := by
  simp only [tokens] at h
  split at h
  · cases h
  · cases h
    intro d hd
    obtain ⟨item, -, hi⟩ := List.mem_filterMap.1 hd
    cases item with
    | token => cases hi
    | fault =>
      cases hi
      rfl

end Lox
