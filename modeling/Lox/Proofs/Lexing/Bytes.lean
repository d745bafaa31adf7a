import Lox.Token.Lexer

/-!
Texts as bytes. The characters of ASCII are a byte each, and every byte of another character is one
that no character of ASCII has; so what is read byte by byte and stops at characters of ASCII is read
character by character (`Agree.takeWhile_encode`).
-/

namespace Lox

namespace Lexer

/-- The bytes of a text. -/
def bytes (source : String) : List UInt8 :=
  source.toByteArray.data.toList

/-- The bytes of characters. -/
def encode (cs : List Char) : List UInt8 :=
  cs.flatMap String.utf8EncodeChar

@[simp] theorem encode_nil : encode [] = [] := rfl

@[simp] theorem encode_cons (c : Char) (cs : List Char) :
    encode (c :: cs) = String.utf8EncodeChar c ++ encode cs := rfl

@[simp] theorem encode_append (cs ds : List Char) : encode (cs ++ ds) = encode cs ++ encode ds :=
  List.flatMap_append

theorem bytes_eq_encode (source : String) : bytes source = encode source.toList := by
  have h : source.toByteArray = source.toList.utf8Encode := by
    rw [← String.toByteArray_ofList, String.ofList_toList]
  rw [bytes, h, List.utf8Encode, List.toList_data_toByteArray, encode]

/-- The byte that a character of ASCII is. -/
def byte (c : Char) : UInt8 :=
  .ofNat c.toNat

/-! ### The bytes of a character -/

/-- A byte that goes on with a character of several bytes. -/
def isContinuation (b : UInt8) : Bool :=
  b &&& 0xC0 = 0x80

/-- A character of ASCII is one byte; of any other character all bytes are high, and those after the
first one go on with it. -/
theorem utf8EncodeChar_cases (c : Char) :
    (c.toNat < 128 ∧ String.utf8EncodeChar c = [byte c])
      ∨ 128 ≤ c.toNat ∧ ∃ b bs, String.utf8EncodeChar c = b :: bs ∧ 128 ≤ b
        ∧ isContinuation b = false ∧ ∀ b' ∈ bs, 128 ≤ b' ∧ isContinuation b' = true := by
  have hnext : ∀ n < 64, 128 ≤ UInt8.ofNat (n + 128)
      ∧ isContinuation (UInt8.ofNat (n + 128)) = true := by decide
  have hfirst : ∀ n < 64, 128 ≤ UInt8.ofNat (n + 192)
      ∧ isContinuation (UInt8.ofNat (n + 192)) = false := by decide
  have hmod (k : Nat) : k % 64 < 64 := Nat.mod_lt _ (by decide)
  unfold String.utf8EncodeChar
  have hval : c.val.toNat = c.toNat := rfl
  simp only [hval]
  split
  · exact .inl ⟨by omega, rfl⟩
  right
  refine ⟨by omega, ?_⟩
  split
  · have hlead := hfirst (c.toNat / 64 % 32) (by omega)
    exact ⟨_, _, rfl, hlead.1, hlead.2, List.forall_mem_cons.2 ⟨hnext _ (hmod _), by simp⟩⟩
  split
  · have hlead := hfirst (c.toNat / 4096 % 16 + 32) (by omega)
    exact ⟨_, _, rfl, hlead.1, hlead.2, List.forall_mem_cons.2
      ⟨hnext _ (hmod _), List.forall_mem_cons.2 ⟨hnext _ (hmod _), by simp⟩⟩⟩
  · have hlead := hfirst (c.toNat / 262144 % 8 + 48) (by omega)
    exact ⟨_, _, rfl, hlead.1, hlead.2, List.forall_mem_cons.2
      ⟨hnext _ (hmod _), List.forall_mem_cons.2 ⟨hnext _ (hmod _),
        List.forall_mem_cons.2 ⟨hnext _ (hmod _), by simp⟩⟩⟩⟩

/-! ### Classes of bytes -/

/-- A class of bytes and a class of characters such that the bytes of a character are in the one if
the character is in the other. -/
def Agree (p : UInt8 → Bool) (q : Char → Bool) : Prop :=
  ∀ c, ∀ b ∈ String.utf8EncodeChar c, p b = q c

namespace Agree

variable {p : UInt8 → Bool} {q : Char → Bool}

/-- Classes that do not tell apart what is not in ASCII. -/
theorem of_ascii {v : Bool} (hlow : ∀ n < 128, p (UInt8.ofNat n) = q (Char.ofNat n))
    (hp : ∀ n < 256, 128 ≤ n → p (UInt8.ofNat n) = v)
    (hq : ∀ c : Char, 128 ≤ c.toNat → q c = v) : Agree p q := by
  intro c b hb
  rcases utf8EncodeChar_cases c with ⟨hc, hbytes⟩ | ⟨hc, b₀, bs, hbytes, hb₀, -, hbs⟩
  · rw [hbytes, List.mem_singleton] at hb
    rw [hb, byte, hlow _ hc, Char.ofNat_toNat]
  · have hhigh : 128 ≤ b := by
      rw [hbytes] at hb
      rcases List.mem_cons.1 hb with rfl | hb
      · exact hb₀
      · exact (hbs b hb).1
    have hb' := hp b.toNat (UInt8.toNat_lt b) (UInt8.le_iff_toNat_le.1 hhigh)
    rw [UInt8.ofNat_toNat] at hb'
    rw [hb', hq c hc]

/-- What is read byte by byte is read character by character. -/
theorem takeWhile_encode (h : Agree p q) (cs : List Char) :
    (encode cs).takeWhile p = encode (cs.takeWhile q) := by
  induction cs with
  | nil => rfl
  | cons c cs ih =>
    by_cases hc : q c = true
    · have hall : ∀ b ∈ String.utf8EncodeChar c, p b = true := fun b hb => (h c b hb).trans hc
      rw [encode_cons, List.takeWhile_append_of_pos hall, ih, List.takeWhile_cons_of_pos hc,
        encode_cons]
    · obtain ⟨b, bs, hbytes⟩ := List.exists_cons_of_ne_nil (String.utf8EncodeChar_ne_nil (c := c))
      have hb : p b = q c := h c b (by simp [hbytes])
      rw [encode_cons, hbytes, List.cons_append, List.takeWhile_cons_of_neg (by rwa [hb]),
        List.takeWhile_cons_of_neg hc]
      rfl

/-- The next byte is in the class if the next character is, given that 0 is not in it, which stands
for the end of the text. -/
theorem getD_encode (h : Agree p q) (h0 : p 0 = false) (cs : List Char) :
    p ((encode cs).getD 0 0) = cs.head?.any q := by
  cases cs with
  | nil => exact h0
  | cons c cs =>
    obtain ⟨b, bs, hbytes⟩ := List.exists_cons_of_ne_nil (String.utf8EncodeChar_ne_nil (c := c))
    have hb : p b = q c := h c b (by simp [hbytes])
    rw [encode_cons, hbytes]
    exact hb

/-- A single character of ASCII. -/
theorem single {d : Char} (hd : d.toNat < 128) : Agree (· = byte d) (· = d) := by
  intro c b hb
  have hbyte {c : Char} (hc : c.toNat < 128) : (byte c).toNat = c.toNat :=
    UInt8.toNat_ofNat_of_lt' (Nat.lt_trans hc (by decide))
  rcases utf8EncodeChar_cases c with ⟨hc, hbytes⟩ | ⟨hc, b₀, bs, hbytes, hb₀, -, hbs⟩
  · rw [hbytes, List.mem_singleton] at hb
    have hsame : byte c = byte d ↔ c = d := by
      constructor
      · intro h
        have h := congrArg UInt8.toNat h
        rw [hbyte hc, hbyte hd] at h
        exact Char.toNat_inj.1 h
      · rintro rfl
        rfl
    rw [hb]
    exact decide_eq_decide.2 hsame
  · have hhigh : 128 ≤ b := by
      rw [hbytes] at hb
      rcases List.mem_cons.1 hb with rfl | hb
      · exact hb₀
      · exact (hbs b hb).1
    have hne : b ≠ byte d := by
      rintro rfl
      rw [UInt8.le_iff_toNat_le, hbyte hd] at hhigh
      exact absurd hd (Nat.not_lt.2 hhigh)
    have hne' : c ≠ d := by
      rintro rfl
      omega
    exact (decide_eq_false hne).trans (decide_eq_false hne').symm

/-- All characters but a single one. -/
theorem other {d : Char} (hd : d.toNat < 128) : Agree (· ≠ byte d) (· ≠ d) := by
  intro c b hb
  have h := decide_eq_decide.1 (single hd c b hb)
  exact decide_eq_decide.2 (not_congr h)

/-- A table says about the first byte of a character what it says about the character. -/
theorem lookup_bytes {α : Type} {table : List (Char × α)} (ht : ∀ e ∈ table, e.1.toNat < 128)
    {c : Char} {b : UInt8} (hb : b ∈ String.utf8EncodeChar c) :
    (table.map fun e => (byte e.1, e.2)).lookup b = table.lookup c := by
  induction table with
  | nil => rfl
  | cons e table ih =>
    obtain ⟨he, ht⟩ := List.forall_mem_cons.1 ht
    have hsame : b = byte e.1 ↔ c = e.1 := decide_eq_decide.1 (single he c b hb)
    rw [List.map_cons, List.lookup_cons, List.lookup_cons, ih ht]
    by_cases hc : c = e.1
    · rw [hsame.2 hc, hc, beq_self_eq_true, beq_self_eq_true]
    · rw [beq_eq_false_iff_ne.2 hc, beq_eq_false_iff_ne.2 (mt hsame.1 hc)]

end Agree

/-- Lines can be counted in bytes. -/
theorem count_encode (cs : List Char) : (encode cs).count (byte '\n') = cs.count '\n' := by
  induction cs with
  | nil => rfl
  | cons c cs ih =>
    have hnewline : Agree (· = byte '\n') (· = '\n') := .single (by decide)
    have hfirst : (String.utf8EncodeChar c).count (byte '\n') = [c].count '\n' := by
      by_cases hc : c = '\n'
      · subst hc
        decide
      · rw [List.count_eq_zero_of_not_mem, List.count_eq_zero_of_not_mem]
        · exact fun h => hc (List.mem_singleton.1 h).symm
        · intro h
          have hsame := hnewline c (byte '\n') h
          simp [hc] at hsame
    rw [encode_cons, List.count_append, hfirst, ih, ← List.count_append, List.singleton_append]

/-- After the first byte of a character, those that go on with it are up to its end. -/
theorem takeWhile_isContinuation {c : Char} {b : UInt8} {bs : List UInt8}
    (h : String.utf8EncodeChar c = b :: bs) (cs : List Char) :
    (bs ++ encode cs).takeWhile isContinuation = bs := by
  have hfirst (c : Char) : ∃ b bs, String.utf8EncodeChar c = b :: bs ∧ isContinuation b = false
      ∧ ∀ b' ∈ bs, isContinuation b' = true := by
    rcases utf8EncodeChar_cases c with ⟨hc, hbytes⟩ | ⟨-, b, bs, hbytes, -, hb, hbs⟩
    · have hlow : ∀ n < 128, isContinuation (UInt8.ofNat n) = false := by decide
      exact ⟨_, [], hbytes, hlow _ hc, by simp⟩
    · exact ⟨b, bs, hbytes, hb, fun b' hb' => (hbs b' hb').2⟩
  obtain ⟨b', bs', hbytes, -, hbs⟩ := hfirst c
  obtain ⟨rfl, rfl⟩ := List.cons.inj (h.symm.trans hbytes)
  have hnone : (encode cs).takeWhile isContinuation = [] := by
    cases cs with
    | nil => rfl
    | cons d ds =>
      obtain ⟨b', bs', hbytes', hb', -⟩ := hfirst d
      rw [encode_cons, hbytes', List.cons_append, List.takeWhile_cons_of_neg (by simp [hb'])]
  rw [List.takeWhile_append_of_pos hbs, hnone, List.append_nil]

/-! ### Slices -/

/-- The text between two indices of bytes; there is none unless both are boundaries of characters. -/
def slice? (source : String) (start stop : Nat) : Option String :=
  if start ≤ stop ∧ String.Pos.Raw.IsValid source ⟨start⟩
      ∧ String.Pos.Raw.IsValid source ⟨stop⟩ then
    String.fromUTF8? (source.toByteArray.extract start stop)
  else none

theorem utf8ByteSize_ofList (cs : List Char) :
    (String.ofList cs).utf8ByteSize = (encode cs).length := by
  rw [← String.size_toByteArray, String.toByteArray_ofList, List.utf8Encode, List.size_toByteArray,
    encode]

theorem isValid_of_append {source : String} {before rest : List Char}
    (h : source.toList = before ++ rest) :
    String.Pos.Raw.IsValid source ⟨(encode before).length⟩ := by
  rw [String.Pos.Raw.isValid_iff_exists_append]
  refine ⟨String.ofList before, String.ofList rest, ?_, ?_⟩
  · rw [← String.ofList_append, ← h, String.ofList_toList]
  · rw [← utf8ByteSize_ofList]
    rfl

theorem fromUTF8?_toByteArray (s : String) : String.fromUTF8? s.toByteArray = some s := by
  unfold String.fromUTF8?
  rw [dif_pos s.isValidUTF8]
  rfl

theorem slice?_of_append {source : String} {before w rest : List Char}
    (h : source.toList = before ++ w ++ rest) :
    slice? source (encode before).length (encode (before ++ w)).length = some (String.ofList w) := by
  have hle : (encode before).length ≤ (encode (before ++ w)).length := by
    rw [encode_append, List.length_append]
    exact Nat.le_add_right _ _
  rw [slice?, if_pos ⟨hle, isValid_of_append (h.trans (List.append_assoc ..)), isValid_of_append h⟩]
  have hsource : source = String.ofList before ++ (String.ofList w ++ String.ofList rest) := by
    rw [← String.ofList_append, ← String.ofList_append, ← List.append_assoc, ← h,
      String.ofList_toList]
  have hbefore : (encode before).length = (String.ofList before).toByteArray.size := by
    rw [String.size_toByteArray, utf8ByteSize_ofList]
  have hw : (encode (before ++ w)).length
      = (String.ofList before).toByteArray.size + (String.ofList w).toByteArray.size := by
    rw [String.size_toByteArray, String.size_toByteArray, utf8ByteSize_ofList,
      utf8ByteSize_ofList, encode_append, List.length_append]
  have hskip := ByteArray.extract_append_size_add (a := (String.ofList before).toByteArray)
    (b := (String.ofList w).toByteArray ++ (String.ofList rest).toByteArray) (i := 0)
    (j := (String.ofList w).toByteArray.size)
  rw [hsource, hbefore, hw, String.toByteArray_append, String.toByteArray_append]
  rw [Nat.add_zero] at hskip
  rw [hskip, ByteArray.extract_append_eq_left rfl, fromUTF8?_toByteArray]

end Lexer

end Lox
