import Lox.Proofs.Lexing.Joined

/-!
The texts of the tokens of a program, with a space between them. Scanning them gives the tokens again
(`tokens_spaced`): no token goes on behind a space, so each of them is read from its own text alone.
-/

namespace Lox

namespace Lexer

/-- What a token is, but for its line: its kind, with the value of a literal, and its text. -/
def content (t : Token) : Kind × String :=
  (t.kind, t.lexeme)

/-- The texts of the tokens, each with a space behind it. -/
def spaced (ts : List Token) : List Char :=
  ts.flatMap fun t => t.lexeme.toList ++ [' ']

/-- A token is the first piece of a text that goes on with a space. -/
theorem front_of_lexeme_space {w : List Char} {kind : Kind} (h : Lexeme w kind)
    (rest : List Char) :
    ∃ c cs, w = c :: cs ∧ front c (cs ++ ' ' :: rest) = (.token kind, cs.length) := by
  obtain ⟨c, cs, rfl, hfront⟩ := front_of_lexeme h
  refine ⟨c, cs, rfl, ?_⟩
  rw [front_append_gap (by decide) (by rw [hfront]; exact nofun) (.inr (by rw [hfront]; exact nofun)),
    hfront]

/-- A space makes no item. -/
theorem itemsFrom_space (line : Nat) (rest : List Char) :
    itemsFrom line (' ' :: rest) = itemsFrom line rest :=
  itemsFrom_first (show front ' ' rest = (.skipped, 0) from rfl) line

/-- The items of a text that starts with a token and a space. -/
theorem itemsFrom_lexeme_space {w : List Char} {kind : Kind} (h : Lexeme w kind) (line : Nat)
    (rest : List Char) :
    itemsFrom line (w ++ ' ' :: rest)
      = .token ⟨kind, String.ofList w, line + w.count '\n'⟩
        :: itemsFrom (line + w.count '\n') rest := by
  obtain ⟨c, cs, rfl, hfront⟩ := front_of_lexeme_space h rest
  rw [itemsFrom_piece hfront, itemsFrom_space]
  rfl

/-- Texts that are tokens are read as these tokens, if a space stands behind each of them. -/
theorem itemsFrom_spaced {ts : List Token} (h : ∀ t ∈ ts, Lexeme t.lexeme.toList t.kind)
    (line : Nat) :
    ∃ (us : List Token) (stop : Nat),
      itemsFrom line (spaced ts) = us.map Item.token ++ [.token ⟨.eof, "", stop⟩]
        ∧ us.map content = ts.map content := by
  induction ts generalizing line with
  | nil =>
    refine ⟨[], line, ?_, rfl⟩
    rw [spaced, List.flatMap_nil, itemsFrom]
    rfl
  | cons t ts ih =>
    obtain ⟨ht, hts⟩ := List.forall_mem_cons.1 h
    obtain ⟨us, stop, hitems, hcontent⟩ := ih hts (line + t.lexeme.toList.count '\n')
    have htext : spaced (t :: ts) = t.lexeme.toList ++ ' ' :: spaced ts := by
      rw [spaced, List.flatMap_cons, List.append_assoc]
      rfl
    refine ⟨⟨t.kind, t.lexeme, line + t.lexeme.toList.count '\n'⟩ :: us, stop, ?_, ?_⟩
    · rw [htext, itemsFrom_lexeme_space ht, hitems, String.ofList_toList]
      rfl
    · rw [List.map_cons, List.map_cons, hcontent]
      rfl

/-- Texts that are joined with spaces, the last of them empty, have a space behind each of the
others. -/
theorem toList_intercalate_space (body : List Token) :
    (" ".intercalate (body.map Token.lexeme ++ [""])).toList = spaced body := by
  induction body with
  | nil => rfl
  | cons t body ih =>
    obtain ⟨word, words, hrest⟩ := List.exists_cons_of_ne_nil
      (show body.map Token.lexeme ++ [""] ≠ [] by simp)
    rw [List.map_cons, List.cons_append, hrest, String.intercalate_cons_cons, ← hrest,
      String.toList_append, String.toList_append, ih]
    rfl

/-- The text of every token that is found is a token of its kind by itself, but for the end. -/
theorem Lexes.lexeme {before text : List Char} {found : List Item} (h : Lexes before text found)
    {t : Token} (ht : Item.token t ∈ found) (hne : t.kind ≠ .eof) :
    Lexeme t.lexeme.toList t.kind := by
  induction h with
  | done before =>
    obtain rfl := Item.token.inj (List.mem_singleton.1 ht)
    exact absurd rfl hne
  | skip _ _ ih => exact ih ht
  | token hw _ ih =>
    rcases List.mem_cons.1 ht with ht | ht
    · obtain rfl := Item.token.inj ht
      rw [String.toList_ofList]
      cases hw.isPiece with
      | token hw => exact hw
    · exact ih ht
  | unexpected _ _ _ ih => exact ih ((List.mem_cons.1 ht).resolve_left nofun)
  | unterminated _ _ ih => exact ih ((List.mem_cons.1 ht).resolve_left nofun)

end Lexer

/-- The tokens of a program up to its end, each of them a token by its own text. -/
theorem exists_lexemes {source : String} {ts : List Token} (h : tokens source = .ok ts) :
    ∃ body line, ts = body ++ [⟨.eof, "", line⟩]
      ∧ ∀ t ∈ body, Lexer.Lexeme t.lexeme.toList t.kind := by
  rw [tokens_eq_ok_iff] at h
  obtain ⟨-, rfl⟩ := h
  have hlexes := (Lexer.lexes_iff source (Lexer.items source)).2 rfl
  obtain ⟨body, hbody, hkinds⟩ := hlexes.ends
  refine ⟨body.filterMap Lexer.Item.token?, 1 + source.toList.count '\n', ?_, ?_⟩
  · rw [hbody, List.filterMap_append]
    rfl
  · intro t ht
    obtain ⟨item, hitem, htoken⟩ := List.mem_filterMap.1 ht
    cases item with
    | fault => cases htoken
    | token =>
      obtain rfl := Option.some.inj htoken
      exact hlexes.lexeme (hbody ▸ List.mem_append_left _ hitem) (hkinds _ hitem)

/-- The texts of the tokens of a program, joined with single spaces, have the same tokens but for
lines: the same kinds, the same texts and the same values of literals, in the same order. -/
theorem tokens_spaced {source : String} {ts : List Token} (h : tokens source = .ok ts) :
    ∃ us, tokens (" ".intercalate (ts.map Token.lexeme)) = .ok us
      ∧ us.map (fun t => (t.kind, t.lexeme)) = ts.map (fun t => (t.kind, t.lexeme)) := by
  obtain ⟨body, line, rfl, hlexemes⟩ := exists_lexemes h
  obtain ⟨us, stop, hitems, hcontent⟩ := Lexer.itemsFrom_spaced hlexemes 1
  have hitems : Lexer.items (" ".intercalate (List.map Token.lexeme (body ++ [⟨.eof, "", line⟩])))
      = us.map Lexer.Item.token ++ [.token ⟨.eof, "", stop⟩] := by
    rw [List.map_append, ← hitems, ← Lexer.toList_intercalate_space]
    rfl
  refine ⟨us ++ [⟨.eof, "", stop⟩], ?_, ?_⟩
  · rw [tokens_eq_ok_iff, hitems]
    refine ⟨?_, ?_⟩
    · intro item hitem
      rcases List.mem_append.1 hitem with hitem | hitem
      · obtain ⟨t, -, rfl⟩ := List.mem_map.1 hitem
        rfl
      · obtain rfl := List.mem_singleton.1 hitem
        rfl
    · rw [List.filterMap_append, List.filterMap_map]
      exact congrArg (· ++ _) List.filterMap_some
  · rw [List.map_append, List.map_append]
    exact congrArg (· ++ _) hcontent

/-- A number before a point and a word, operators that another character makes longer, and a string
with slashes and a newline between its quotes. -/
theorem tokens_spaced_mixed :
    ∃ us, tokens "1.5 . x != ! = \"// \n\" / " = .ok us
      ∧ us.map (fun t => (t.kind, t.lexeme))
        = [(.number (Decimal.ofParts ['1'] ['5'] 0), "1.5"), (.dot, "."), (.identifier, "x"),
          (.bangEqual, "!="), (.bang, "!"), (.equal, "="), (.string "// \n", "\"// \n\""),
          (.slash, "/"), (.eof, "")] :=
  @tokens_spaced "1.5.x!=! =\"// \n\"/"
    [⟨.number (Decimal.ofParts ['1'] ['5'] 0), "1.5", 1⟩, ⟨.dot, ".", 1⟩,
      ⟨.identifier, "x", 1⟩, ⟨.bangEqual, "!=", 1⟩, ⟨.bang, "!", 1⟩, ⟨.equal, "=", 1⟩,
      ⟨.string "// \n", "\"// \n\"", 2⟩, ⟨.slash, "/", 2⟩, ⟨.eof, "", 2⟩]
    (by decide +kernel)

end Lox
