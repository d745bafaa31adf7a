import Lox.Proofs.Lexing.Longest
import Lox.Proofs.Tree.Relabel

/-!
Two texts with a newline between them. What stands before the newline and what stands behind it are read
as if each stood alone, on other lines, and their faults are the same ones (`items_newline`): nothing that
the first text starts can go on behind the newline, unless it is a string that is not terminated, and that
is a fault. So if both texts have tokens, those of the whole are those of the first text up to its end,
and then those of the second one (`tokens_join`).
-/

namespace Lox

namespace Lexer

/-! ### Other lines -/

/-- The item on another line. -/
def Item.onLine (f : Nat → Nat) : Item → Item
  | .token t => .token (t.relabel (.lines f))
  | .fault line cause => .fault (f line) cause

theorem Piece.item?_add (taken : List Char) (line k : Nat) (piece : Piece) :
    piece.item? taken (line + k) = (piece.item? taken line).map (Item.onLine (· + k)) := by
  cases piece <;> rfl

/-- The items of a text that starts some lines further on. -/
theorem itemsFrom_add (line k : Nat) (cs : List Char) :
    itemsFrom (line + k) cs = (itemsFrom line cs).map (Item.onLine (· + k)) := by
  induction line, cs using itemsFrom.induct with
  | case1 line =>
    rw [itemsFrom, itemsFrom]
    rfl
  | case2 line c cs taken last ih =>
    have hlast : line + k + taken.count '\n' = last + k := Nat.add_right_comm ..
    rw [itemsFrom, itemsFrom, List.map_append, ← ih]
    show ((front c cs).1.item? taken (line + k + taken.count '\n')).toList
      ++ itemsFrom (line + k + taken.count '\n') _ = _
    rw [hlast, Piece.item?_add, Option.toList_map]

/-! ### Text after a gap -/

section

variable {p : Char → Bool} {g : Char} (cs ds : List Char)

theorem takeWhile_append_stop (hp : p g = false) :
    (cs ++ g :: ds).takeWhile p = cs.takeWhile p := by
  rw [List.takeWhile_append]
  split
  · rename_i h
    rw [List.takeWhile_cons_of_neg (by simp [hp]), List.append_nil,
      (List.takeWhile_prefix p).eq_of_length h]
  · rfl

theorem dropWhile_append_stop (hp : p g = false) :
    (cs ++ g :: ds).dropWhile p = cs.dropWhile p ++ g :: ds := by
  rw [List.dropWhile_append]
  split
  · rename_i h
    rw [List.dropWhile_cons_of_neg (by simp [hp]), List.isEmpty_iff.1 h, List.nil_append]
  · rfl

theorem head?_append_stop {c : Char} (hc : c ≠ g) :
    (cs ++ g :: ds).head? = some c ↔ cs.head? = some c := by
  cases cs with
  | nil => simpa using hc.symm
  | cons => rfl

theorem fraction_append_stop (hdigit : g.isDigit = false) (hpoint : g ≠ '.') :
    fraction (cs ++ g :: ds) = fraction cs := by
  have hnone {c : Char} (hc : c ≠ '.') (cs : List Char) : fraction (c :: cs) = [] := by
    unfold fraction
    split
    · rename_i h
      exact absurd (List.cons.inj h).1 hc
    · rfl
  cases cs with
  | nil => exact hnone hpoint ds
  | cons c cs =>
    by_cases hc : c = '.'
    · subst hc
      exact takeWhile_append_stop cs ds hdigit
    · rw [List.cons_append, hnone hc, hnone hc]

theorem afterQuote_append_cons (h : (afterQuote cs).1 ≠ .fault .unterminatedString) :
    afterQuote (cs ++ g :: ds) = afterQuote cs := by
  have hlength : (cs.takeWhile (· ≠ '"')).length < cs.length := by
    refine Nat.lt_of_not_le fun hle => h ?_
    simp only [afterQuote, if_neg (Nat.not_lt.2 hle)]
  have htake : (cs ++ g :: ds).takeWhile (· ≠ '"') = cs.takeWhile (· ≠ '"') := by
    rw [List.takeWhile_append, if_neg (Nat.ne_of_lt hlength)]
  simp only [afterQuote, htake, if_pos hlength, List.length_append]
  rw [if_pos (by omega)]

end

/-- The piece at the front of a text does not go on behind a gap after the text. Only a comment would,
and a newline ends that too. -/
theorem front_append_gap {g : Char} (hg : g ∈ gaps) {c : Char} {cs : List Char}
    (h : (front c cs).1 ≠ .fault .unterminatedString)
    (hcomment : g = '\n' ∨ (front c cs).1 ≠ .skipped) (ds : List Char) :
    front c (cs ++ g :: ds) = front c cs := by
  have hgaps : ∀ g ∈ gaps, '=' ≠ g ∧ '/' ≠ g ∧ g ≠ '.' ∧ g.isDigit = false
      ∧ continuesWord g = false := by
    simp only [gaps, List.forall_mem_cons, List.not_mem_nil, false_implies, implies_true]
    decide
  obtain ⟨hequal, hslash, hpoint, hdigit, hword⟩ := hgaps g hg
  have hstarts := starts c
  generalize front c = f at hstarts h hcomment ⊢
  cases hstarts with
  | mark | gap | other => rfl
  | operator => simp only [withEqual, head?_append_stop cs ds hequal]
  | slash =>
    simp only [afterSlash, head?_append_stop cs ds hslash] at hcomment ⊢
    split
    · rename_i hhead
      rw [if_pos hhead] at hcomment
      obtain rfl : g = '\n' := hcomment.resolve_right fun hne => hne rfl
      rw [takeWhile_append_stop cs ds (p := (· ≠ '\n')) (by decide)]
    · rfl
  | quote => exact afterQuote_append_cons cs ds h
  | digit =>
    simp only [afterDigit, takeWhile_append_stop cs ds hdigit, dropWhile_append_stop cs ds hdigit,
      fraction_append_stop _ ds hdigit hpoint]
  | letter => simp only [afterLetter, takeWhile_append_stop cs ds hword]

theorem ofWord_ne_eof (word : String) : Kind.ofWord word ≠ .eof := by
  have hkeywords : ∀ p ∈ keywords, p.2 ≠ .eof := by decide
  unfold Kind.ofWord
  cases hl : keywords.lookup word with
  | none => exact nofun
  | some k =>
    obtain ⟨l, l', hl, -⟩ := List.lookup_eq_some_iff.1 hl
    exact hkeywords (word, k) (by simp [hl])

/-- No piece of a text is the end of the program. -/
theorem front_ne_eof (c : Char) (cs : List Char) : (front c cs).1 ≠ .token .eof := by
  have hmarks : ∀ p ∈ marks, p.2 ≠ .eof := by decide
  have hoperators : ∀ p ∈ operators, p.2.1 ≠ .eof ∧ p.2.2 ≠ .eof := by decide
  intro h
  unfold front at h
  split at h
  · rename_i kind hm
    obtain ⟨l, l', hl, -⟩ := List.lookup_eq_some_iff.1 hm
    cases h
    exact hmarks (c, .eof) (by simp [hl]) rfl
  · rename_i short long hm ho
    obtain ⟨l, l', hl, -⟩ := List.lookup_eq_some_iff.1 ho
    obtain ⟨hshort, hlong⟩ := hoperators (c, short, long) (by simp [hl])
    unfold withEqual at h
    split at h <;> cases h
    · exact hlong rfl
    · exact hshort rfl
  · split at h
    · cases h
    split at h
    · unfold afterSlash at h
      split at h <;> cases h
    split at h
    · simp only [afterQuote] at h
      split at h <;> cases h
    split at h
    · cases h
    split at h
    · exact ofWord_ne_eof _ (Piece.token.inj h)
    · cases h

/-- The items of a text in which every string is terminated end with the end of the program; if the text
goes on behind a newline, those of the rest stand in place of the end. -/
theorem itemsFrom_append_newline (line : Nat) (cs ds : List Char)
    (h : ∀ l, Item.fault l .unterminatedString ∉ itemsFrom line cs) :
    ∃ body, itemsFrom line cs = body ++ [.token ⟨.eof, "", line + cs.count '\n'⟩]
      ∧ (∀ t, Item.token t ∈ body → t.kind ≠ .eof)
      ∧ itemsFrom line (cs ++ '\n' :: ds) = body ++ itemsFrom (line + cs.count '\n' + 1) ds := by
  induction line, cs using itemsFrom.induct with
  | case1 line =>
    refine ⟨[], by rw [itemsFrom]; rfl, fun t ht => (List.not_mem_nil ht).elim, ?_⟩
    rw [List.nil_append, itemsFrom]
    rfl
  | case2 line c cs taken last ih =>
    have hitems : itemsFrom line (c :: cs) = ((front c cs).1.item? taken last).toList
        ++ itemsFrom last (cs.drop (front c cs).2) := by rw [itemsFrom]
    rw [hitems] at h
    have hfront : front c (cs ++ '\n' :: ds) = front c cs := by
      refine front_append_gap (by decide) (fun hfault => ?_) (.inl rfl) ds
      exact h last (List.mem_append_left _ (by simp [hfault, Piece.item?]))
    have hle := front_le c cs
    obtain ⟨body, hbody, hkinds, hjoined⟩ := ih fun l hl => h l (List.mem_append_right _ hl)
    have hcount : last + (cs.drop (front c cs).2).count '\n' = line + (c :: cs).count '\n' := by
      have htext : c :: cs = taken ++ cs.drop (front c cs).2 := by
        rw [List.cons_append, List.take_append_drop]
      rw [htext, List.count_append, ← Nat.add_assoc]
    refine ⟨((front c cs).1.item? taken last).toList ++ body, ?_, ?_, ?_⟩
    · rw [hitems, hbody, hcount, List.append_assoc]
    · intro t ht
      rcases List.mem_append.1 ht with ht | ht
      · rw [Option.mem_toList] at ht
        unfold Piece.item? at ht
        split at ht <;> cases ht
        rename_i hk
        exact fun heof => front_ne_eof c cs (heof ▸ hk)
      · exact hkinds t ht
    · rw [List.cons_append, itemsFrom, hfront, List.take_append_of_le_length hle,
        List.drop_append_of_le_length hle]
      show _ ++ itemsFrom last _ = _
      rw [hjoined, hcount, List.append_assoc]

/-- The text behind the newline is on later lines by the lines of the first text. -/
theorem itemsFrom_behind (p q : String) :
    itemsFrom (1 + p.toList.count '\n' + 1) q.toList
      = (items q).map (Item.onLine (· + (p.toList.count '\n' + 1))) := by
  rw [Nat.add_assoc, itemsFrom_add]
  rfl

theorem toList_append_newline (p q : String) :
    (p ++ "\n" ++ q).toList = p.toList ++ '\n' :: q.toList := by
  simp

/-- A newline keeps what stands on its two sides apart, faults and all: if every string of the first text
is terminated, the items of the two texts with a newline between them are those of the first one up to
its end, and then those of the second one, as many lines further on as the first text and the newline
have. -/
theorem items_newline (a b : String) (h : ∀ line, Item.fault line .unterminatedString ∉ items a) :
    ∃ body, items a = body ++ [.token ⟨.eof, "", 1 + a.toList.count '\n'⟩]
      ∧ (∀ t, Item.token t ∈ body → t.kind ≠ .eof)
      ∧ items (a ++ "\n" ++ b)
        = body ++ (items b).map (Item.onLine (· + (1 + a.toList.count '\n'))) := by
  obtain ⟨body, hbody, hkinds, hjoined⟩ := itemsFrom_append_newline 1 a.toList b.toList h
  refine ⟨body, hbody, hkinds, ?_⟩
  rw [items, toList_append_newline, hjoined, itemsFrom_behind, Nat.add_comm 1]

/-- A fault that takes several bytes, a comment and an `=` that the newline ends, and a string that is
not terminated on the other side. -/
theorem items_newline_faulty :
    (∀ line, Item.fault line .unterminatedString ∉ items "é\n1. //\" =")
      ∧ ∃ body, items "é\n1. //\" =" = body ++ [.token ⟨.eof, "", 2⟩]
        ∧ (∀ t, Item.token t ∈ body → t.kind ≠ .eof)
        ∧ items "é\n1. //\" =\n= 5\n\"" = body ++ [.token ⟨.equal, "=", 3⟩,
            .token ⟨.number (Decimal.ofParts ['5'] [] 0), "5", 3⟩, .fault 4 .unterminatedString,
            .token ⟨.eof, "", 4⟩] := by
  have hitems : items "é\n1. //\" =" = [.fault 1 (.unexpectedCharacter 'é'),
      .token ⟨.number (Decimal.ofParts ['1'] [] 0), "1", 2⟩, .token ⟨.dot, ".", 2⟩,
      .token ⟨.eof, "", 2⟩] := by
    decide +kernel
  have hterminated (line : Nat) : Item.fault line .unterminatedString ∉ items "é\n1. //\" =" := by
    rw [hitems]
    simp
  refine ⟨hterminated, ?_⟩
  obtain ⟨body, hbody, hkinds, hjoined⟩ := items_newline "é\n1. //\" =" "= 5\n\"" hterminated
  refine ⟨body, hbody, hkinds, hjoined.trans (congrArg (body ++ ·) ?_)⟩
  decide +kernel

end Lexer

theorem tokens_eq_ok_iff {source : String} {ts : List Token} :
    tokens source = .ok ts ↔ (∀ item ∈ Lexer.items source, item.diagnostic? = none)
      ∧ (Lexer.items source).filterMap Lexer.Item.token? = ts := by
  unfold tokens
  constructor
  · intro h
    dsimp only at h
    split at h
    · rename_i hfaults
      cases h
      exact ⟨List.filterMap_eq_nil_iff.1 hfaults, rfl⟩
    · cases h
  · rintro ⟨hfaults, rfl⟩
    simp only [List.filterMap_eq_nil_iff.2 hfaults]

/-- The tokens of two texts with a newline between them. -/
theorem tokens_join {p q : String} {ts us : List Token} (hp : tokens p = .ok ts)
    (hq : tokens q = .ok us) :
    us ≠ [] ∧ ∃ body stop, ts = body ++ [stop] ∧ (∀ t ∈ body, t.kind ≠ .eof) ∧ stop.kind = .eof
      ∧ tokens (p ++ "\n" ++ q)
        = .ok (body ++ us.map (Token.relabel (.lines (· + (p.toList.count '\n' + 1))))) := by
  rw [tokens_eq_ok_iff] at hp hq
  obtain ⟨hp, rfl⟩ := hp
  obtain ⟨hq, rfl⟩ := hq
  obtain ⟨body, hbody, hkinds, hjoined⟩ :=
    Lexer.itemsFrom_append_newline 1 p.toList q.toList fun _ hitem => nomatch hp _ hitem
  obtain ⟨body', hbody', -⟩ :=
    Lexer.itemsFrom_append_newline 1 q.toList [] fun _ hitem => nomatch hq _ hitem
  let k := p.toList.count '\n' + 1
  have hitems : Lexer.items (p ++ "\n" ++ q)
      = body ++ (Lexer.items q).map (Lexer.Item.onLine (· + k)) := by
    rw [Lexer.items, Lexer.toList_append_newline, hjoined, Lexer.itemsFrom_behind]
  have htokens : (Lexer.items p).filterMap Lexer.Item.token?
      = body.filterMap Lexer.Item.token? ++ [⟨.eof, "", 1 + p.toList.count '\n'⟩] := by
    rw [Lexer.items, hbody, List.filterMap_append]
    rfl
  refine ⟨?_, body.filterMap Lexer.Item.token?, _, htokens, ?_, rfl, ?_⟩
  · rw [Lexer.items, hbody', List.filterMap_append]
    exact List.append_ne_nil_of_right_ne_nil _ (by simp [Lexer.Item.token?])
  · intro t ht
    obtain ⟨item, hitem, ht⟩ := List.mem_filterMap.1 ht
    cases item with
    | token t' =>
      cases ht
      exact hkinds _ hitem
    | fault => cases ht
  · rw [tokens_eq_ok_iff, hitems]
    constructor
    · intro item hitem
      rcases List.mem_append.1 hitem with hitem | hitem
      · refine hp item ?_
        rw [Lexer.items, hbody]
        exact List.mem_append_left _ hitem
      · obtain ⟨source, hsource, rfl⟩ := List.mem_map.1 hitem
        have hnone := hq source hsource
        cases source with
        | token => rfl
        | fault => cases hnone
    · rw [List.filterMap_append, List.filterMap_map, List.map_filterMap]
      congr 2
      funext item
      cases item <;> rfl

end Lox
