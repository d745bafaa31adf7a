import Lox.Console
import Lox.Proofs.Lexing.Bytes

/-!
The lines of an input. The bytes are cut behind each newline (`Line.isCut_pieces`), and a piece that is
UTF-8 is read as the text that it is without what ends the line (`Line.ofBytes_eq_text`).
-/

namespace Lox

namespace Line

/-- The byte that may stand before the one that ends a line. -/
def carriageReturn : UInt8 := 13

/-! ### Pieces -/

/-- Bytes with no newline but at their end. -/
structure IsPiece (piece : List UInt8) : Prop where
  ne_nil : piece ≠ []
  newline : newline ∉ piece.dropLast

/-- No piece is empty or goes on behind a newline. -/
theorem isPiece_of_mem {input piece : List UInt8} (h : piece ∈ pieces input) : IsPiece piece := by
  induction input generalizing piece with
  | nil => cases h
  | cons b rest ih =>
    rw [pieces] at h
    split at h
    · rcases List.mem_cons.1 h with rfl | h
      · exact ⟨by simp, by simp⟩
      · exact ih h
    · rename_i hb
      cases hp : pieces rest with
      | nil =>
        rw [hp] at h
        rw [List.mem_singleton.1 h]
        exact ⟨by simp, by simp⟩
      | cons line lines =>
        rw [hp] at h ih
        rcases List.mem_cons.1 h with rfl | h
        · obtain ⟨hne, hline⟩ := ih List.mem_cons_self
          refine ⟨by simp, ?_⟩
          rw [List.dropLast_cons_of_ne_nil hne, List.mem_cons, not_or]
          exact ⟨fun hn => hb hn.symm, hline⟩
        · exact ih (List.mem_cons_of_mem line h)

/-- Every piece but the last one ends with a newline. -/
theorem getLast?_of_mem_dropLast {input piece : List UInt8}
    (h : piece ∈ (pieces input).dropLast) : piece.getLast? = some newline := by
  induction input generalizing piece with
  | nil => cases h
  | cons b rest ih =>
    rw [pieces] at h
    split at h
    · rename_i hb
      cases hp : pieces rest with
      | nil =>
        rw [hp] at h
        cases h
      | cons line lines =>
        rw [hp] at h ih
        rcases List.mem_cons.1 h with rfl | h
        · simp [hb]
        · exact ih h
    · cases hp : pieces rest with
      | nil =>
        rw [hp] at h
        cases h
      | cons line lines =>
        rw [hp] at h ih
        have hne : line ≠ [] := (isPiece_of_mem (hp ▸ List.mem_cons_self)).ne_nil
        cases lines with
        | nil => cases h
        | cons next lines =>
          rcases List.mem_cons.1 h with rfl | h
          · have hline : line.getLast? = some newline := ih List.mem_cons_self
            simp [List.getLast?_cons, hline]
          · exact ih (List.mem_cons_of_mem line h)

/-- Bytes that are cut behind each newline. -/
structure IsCut (input : List UInt8) (pieces : List (List UInt8)) : Prop where
  flatten : pieces.flatten = input
  piece : ∀ piece ∈ pieces, IsPiece piece
  /-- Only behind the last piece there need not be a newline. -/
  newline : ∀ piece ∈ pieces.dropLast, piece.getLast? = some newline

theorem isCut_pieces (input : List UInt8) : IsCut input (pieces input) :=
  ⟨flatten_pieces input, fun _ h => isPiece_of_mem h, fun _ h => getLast?_of_mem_dropLast h⟩

/-! ### Texts -/

/-- The piece is the text with what ends its line: a newline, perhaps with a carriage return before it,
or nothing. A carriage return that belongs to the end of the line does not belong to the text. -/
def Ends (text piece : List UInt8) : Prop :=
  piece = text ++ [carriageReturn, newline]
    ∨ piece = text ++ [newline] ∧ text.getLast? ≠ some carriageReturn
    ∨ piece = text ∧ newline ∉ piece

/-- The last byte is a character of ASCII if and only if the last character is. -/
theorem getLast?_encode {d : Char} (hd : d.toNat < 128) (cs : List Char) :
    (Lexer.encode cs).getLast? = some (Lexer.byte d) ↔ cs.getLast? = some d := by
  rcases List.eq_nil_or_concat cs with rfl | ⟨init, c, rfl⟩
  · simp
  · have hne : String.utf8EncodeChar c ≠ [] := String.utf8EncodeChar_ne_nil
    have hsame := Lexer.Agree.single hd c _ (List.getLast_mem hne)
    rw [decide_eq_decide] at hsame
    rw [List.concat_eq_append, Lexer.encode_append, Lexer.encode_cons, Lexer.encode_nil,
      List.append_nil, List.getLast?_append, List.getLast?_eq_some_getLast hne, Option.some_or,
      List.getLast?_concat, Option.some.injEq, Option.some.injEq, hsame]

/-- What is left of a line is the text that it ends. -/
theorem ends_strip {cs : List Char} (h : IsPiece (Lexer.encode cs)) :
    Ends (Lexer.encode (strip cs)) (Lexer.encode cs) := by
  have hn : Lexer.byte '\n' = newline := rfl
  unfold strip
  split
  · rename_i body hrev
    have hcs : cs = body.reverse ++ ['\r', '\n'] := by simpa using congrArg List.reverse hrev
    left
    rw [hcs, Lexer.encode_append]
    rfl
  · rename_i body hbody hrev
    have hcs : cs = body.reverse ++ ['\n'] := by simpa using congrArg List.reverse hrev
    right
    left
    refine ⟨?_, ?_⟩
    · rw [hcs, Lexer.encode_append]
      rfl
    · -- A carriage return at the end of the text would have been taken away with the newline.
      intro hlast
      have hr : body.reverse.getLast? = some '\r' :=
        (getLast?_encode (d := '\r') (by decide) body.reverse).1 hlast
      rw [List.getLast?_reverse] at hr
      obtain ⟨rest, rfl⟩ := List.head?_eq_some_iff.1 hr
      exact hbody rest rfl
  · rename_i hother
    right
    right
    refine ⟨rfl, fun hmem => ?_⟩
    -- A newline could only be the last byte, and then it would be the last character.
    have hlast : (Lexer.encode cs).getLast? = some newline := by
      rw [← List.dropLast_concat_getLast h.ne_nil, List.mem_append, List.mem_singleton] at hmem
      rw [List.getLast?_eq_some_getLast h.ne_nil]
      rcases hmem with hmem | hmem
      · exact absurd hmem h.newline
      · rw [← hmem]
    rw [← hn, getLast?_encode (by decide), List.getLast?_eq_head?_reverse] at hlast
    obtain ⟨rest, hrest⟩ := List.head?_eq_some_iff.1 hlast
    exact hother rest hrest

theorem fromUTF8?_eq_some_iff {bytes : ByteArray} {source : String} :
    String.fromUTF8? bytes = some source ↔ source.toByteArray = bytes := by
  constructor
  · intro h
    unfold String.fromUTF8? at h
    split at h
    · cases h
      rfl
    · cases h
  · rintro rfl
    exact Lexer.fromUTF8?_toByteArray source

/-- A piece that is the bytes of a text is read as this text without what ends its line. -/
theorem ofBytes_eq_text {piece : List UInt8} (h : IsPiece piece) {source : String}
    (hsource : Lexer.bytes source = piece) :
    ∃ text, ofBytes piece = .text text ∧ Ends (Lexer.bytes text) piece := by
  have hread : String.fromUTF8? ⟨piece.toArray⟩ = some source := by
    rw [fromUTF8?_eq_some_iff, ← hsource]
    rfl
  refine ⟨String.ofList (strip source.toList), ?_, ?_⟩
  · rw [ofBytes, if_neg h.ne_nil, hread]
  · rw [Lexer.bytes_eq_encode] at hsource ⊢
    rw [String.toList_ofList]
    rw [← hsource] at h ⊢
    exact ends_strip h

/-- A piece that is the bytes of no text cannot be read. -/
theorem ofBytes_eq_unreadable {piece : List UInt8} (h : IsPiece piece)
    (hsource : ∀ source, Lexer.bytes source ≠ piece) : ofBytes piece = .unreadable := by
  rw [ofBytes, if_neg h.ne_nil]
  cases hread : String.fromUTF8? ⟨piece.toArray⟩ with
  | none => rfl
  | some source =>
    rw [fromUTF8?_eq_some_iff] at hread
    exact absurd (by rw [Lexer.bytes, hread]) (hsource source)

example : (pieces "a\r\n\nb\r".toUTF8.toList).map ofBytes = [.text "a", .text "", .text "b\r"] := by
  decide +kernel

end Line

end Lox
