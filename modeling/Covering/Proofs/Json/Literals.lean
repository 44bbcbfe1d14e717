import Covering.Json.Reader
import Covering.Json.Writer
import Mathlib.Data.List.TakeWhile

/-!
# Literals

What is written for a word, a character or a text is a literal of that value. A number literal
begins with a digit or a minus sign and consists of characters that can occur in numbers, so that
its end can be told; the literal of a word is a number literal, and denotes the word:
`wordOfLiteral_literalOfWord`. A text between quotes is read back character by character:
`Lexer.foldlM_writeText`.
-/

namespace Covering.Json
set_option autoImplicit false

variable {c : Char} {cs : List Char} {n : Nat}

/-! ## Number literals -/

theorem isNumberChar_of_isDigit (h : isDigit c) : isNumberChar c := by simp [isNumberChar, h]

theorem ne_of_isDigit {d : Char} (h : isDigit c) (hd : isDigit d = false) : c ≠ d := by
  rintro rfl
  exact absurd h (by simp [hd])

theorem isDigits_iff : isDigits cs ↔ cs ≠ [] ∧ ∀ c ∈ cs, isDigit c := by
  simp [isDigits]

/-- An integer consists of digits. -/
theorem isDigits_of_isInteger (h : isInteger cs) : isDigits cs := by
  unfold isInteger at h
  split at h
  · rfl
  · cases h
  · exact h

theorem isNumberChar_of_isExponent (h : isExponent cs) : ∀ c ∈ cs, isNumberChar c := by
  have hdigits : ∀ cs, isDigits cs → ∀ c ∈ cs, isNumberChar c := fun cs h c hc =>
    isNumberChar_of_isDigit ((isDigits_iff.1 h).2 c hc)
  unfold isExponent at h
  split at h
  · exact List.forall_mem_cons.2 ⟨by decide, hdigits _ h⟩
  · exact List.forall_mem_cons.2 ⟨by decide, hdigits _ h⟩
  · exact hdigits _ h

theorem isNumberChar_of_isFraction (h : isFraction cs) : ∀ c ∈ cs, isNumberChar c := by
  unfold isFraction at h
  split at h
  · simp
  · exact List.forall_mem_cons.2 ⟨by decide, fun c hc =>
      isNumberChar_of_isDigit ((isDigits_iff.1 h).2 c hc)⟩
  · cases h

theorem drop_length_takeWhile (p : Char → Bool) (cs : List Char) :
    cs.drop (cs.takeWhile p).length = cs.dropWhile p := by
  have h : (cs.takeWhile p ++ cs.dropWhile p).drop (cs.takeWhile p).length = cs.dropWhile p :=
    List.drop_left
  rwa [List.takeWhile_append_dropWhile] at h

/-- A literal without its sign begins with a digit. -/
theorem isUnsigned_eq_cons (h : isUnsigned cs) :
    ∃ c rest, cs = c :: rest ∧ isDigit c ∧ ∀ d ∈ rest, isNumberChar d := by
  simp only [isUnsigned, drop_length_takeWhile, Bool.and_eq_true] at h
  obtain ⟨⟨hinteger, hfraction⟩, hexponent⟩ := h
  have hend : ∀ c ∈ cs.dropWhile (!isExponentMark ·), isNumberChar c := by
    cases hdrop : cs.dropWhile (!isExponentMark ·) with
    | nil => simp
    | cons mark exponent =>
      rw [hdrop] at hexponent
      have hmark : isExponentMark mark := by
        have := List.head_dropWhile_not (!isExponentMark ·) (l := cs) (by simp [hdrop])
        simpa [hdrop] using this
      refine List.forall_mem_cons.2 ⟨?_, isNumberChar_of_isExponent hexponent⟩
      have : mark = 'e' ∨ mark = 'E' := by simpa [isExponentMark] using hmark
      rcases this with rfl | rfl <;> decide
  obtain ⟨hne, hdigits⟩ := isDigits_iff.1 (isDigits_of_isInteger hinteger)
  obtain ⟨c, rest, hrest⟩ := List.exists_cons_of_ne_nil hne
  obtain ⟨hc, hdigits⟩ := List.forall_mem_cons.1 (hrest ▸ hdigits)
  have hmantissa := List.takeWhile_append_dropWhile (p := (· ≠ '.'))
    (l := cs.takeWhile (!isExponentMark ·))
  have hcs := List.takeWhile_append_dropWhile (p := (!isExponentMark ·)) (l := cs)
  rw [← hmantissa, hrest] at hcs
  refine ⟨c, _, by rw [← hcs, List.cons_append, List.cons_append], hc, fun d hd => ?_⟩
  rcases List.mem_append.1 hd with hd | hd
  · rcases List.mem_append.1 hd with hd | hd
    · exact isNumberChar_of_isDigit (hdigits d hd)
    · exact isNumberChar_of_isFraction hfraction d hd
  · exact hend d hd

/-- A number literal begins with a minus sign or a digit. -/
theorem isNumber_eq_cons (h : isNumber cs) :
    ∃ c rest, cs = c :: rest ∧ (c = '-' ∨ isDigit c) ∧ ∀ d ∈ rest, isNumberChar d := by
  unfold isNumber at h
  split at h
  · next rest =>
    obtain ⟨c, digits, rfl, hc, hrest⟩ := isUnsigned_eq_cons h
    exact ⟨'-', _, rfl, .inl rfl,
      List.forall_mem_cons.2 ⟨isNumberChar_of_isDigit hc, hrest⟩⟩
  · obtain ⟨c, rest, hcs, hc, hrest⟩ := isUnsigned_eq_cons h
    exact ⟨c, rest, hcs, .inr hc, hrest⟩

/-- An integer is a number literal. -/
theorem isNumber_of_isInteger (h : isInteger cs) : isNumber cs := by
  have hdigits := (isDigits_iff.1 (isDigits_of_isInteger h)).2
  have hne : ∀ c ∈ cs, ∀ d, isDigit d = false → c ≠ d := fun c hc _ =>
    ne_of_isDigit (hdigits c hc)
  have hmantissa : cs.takeWhile (!isExponentMark ·) = cs := by
    refine List.takeWhile_eq_self_iff.2 fun c hc => ?_
    simp [isExponentMark, hne c hc 'e' rfl, hne c hc 'E' rfl]
  have hinteger : cs.takeWhile (· ≠ '.') = cs := by
    refine List.takeWhile_eq_self_iff.2 fun c hc => ?_
    simp [hne c hc '.' rfl]
  have hunsigned : isUnsigned cs := by
    simp only [isUnsigned, hmantissa, hinteger, h, List.drop_length, isFraction, Bool.and_true]
  unfold isNumber
  split
  · exact absurd rfl (hne '-' List.mem_cons_self '-' rfl)
  · exact hunsigned

/-! ## Words -/

theorem natOfDigits_concat (cs : List Char) (c : Char) :
    natOfDigits (cs ++ [c]) = natOfDigits cs * 10 + digitValue c := by
  simp [natOfDigits]

theorem natOfDigits_toDigits (n : Nat) : natOfDigits (Nat.toDigits 10 n) = n := by
  induction n using Nat.strongRecOn with
  | ind n ih =>
    by_cases h : n < 10
    · rw [Nat.toDigits_of_lt_base h]
      simp [natOfDigits, digitValue, Nat.toNat_digitChar_sub_48_of_lt_ten h]
    · have hvalue := Nat.toNat_digitChar_sub_48_of_lt_ten (Nat.mod_lt n (by omega : 0 < 10))
      rw [Nat.toDigits_of_base_le (by omega) (Nat.le_of_not_lt h), natOfDigits_concat,
        ih _ (by omega), digitValue]
      simp only [Char.reduceToNat, hvalue]
      omega

theorem isDigits_toDigits (n : Nat) : isDigits (Nat.toDigits 10 n) := by
  refine isDigits_iff.2 ⟨Nat.toDigits_ne_nil, fun c hc => ?_⟩
  have hdigit := Nat.isDigit_of_mem_toDigits (by decide) (by decide) hc
  simp only [Char.isDigit, Bool.and_eq_true, decide_eq_true_eq] at hdigit
  simp only [isDigit, Bool.and_eq_true, decide_eq_true_eq]
  exact hdigit

/-- No zero leads the digits of a positive number. -/
theorem head?_toDigits_ne_zero (hpos : 0 < n) : (Nat.toDigits 10 n).head? ≠ some '0' := by
  induction n using Nat.strongRecOn with
  | ind n ih =>
    by_cases h : n < 10
    · rw [Nat.toDigits_of_lt_base h]
      simpa using hpos.ne'
    · rw [Nat.toDigits_of_base_le (by omega) (Nat.le_of_not_lt h),
        List.head?_append, Option.or_of_isSome (by simp)]
      exact ih _ (by omega) (by omega)

theorem isInteger_toDigits (n : Nat) : isInteger (Nat.toDigits 10 n) := by
  by_cases hpos : 0 < n
  · have hhead := head?_toDigits_ne_zero hpos
    unfold isInteger
    split
    · rfl
    · next heq => simp [heq] at hhead
    · exact isDigits_toDigits n
  · obtain rfl : n = 0 := by omega
    decide

/-- The literal of a word is a number literal. -/
theorem isNumber_literalOfWord (w : UInt64) : isNumber (literalOfWord w) :=
  isNumber_of_isInteger (isInteger_toDigits _)

/-- The literal of a word denotes it. -/
theorem wordOfLiteral_literalOfWord (w : UInt64) : wordOfLiteral (literalOfWord w) = some w := by
  have hdigits := isDigits_of_isInteger (isInteger_toDigits w.toNat)
  have hlt := w.toNat_lt_size
  simp [wordOfLiteral, literalOfWord, natOfDigits_toDigits, hdigits, hlt]

/-! ## Texts -/

theorem hexValue_hexDigit : ∀ n < 16, hexValue (Nat.digitChar n) = some n := by decide

/-- The code of a character is read as that character. -/
theorem pieceOfCode_toNat (h : c.toNat < 0xD800) : pieceOfCode c.toNat = .char c := by
  rw [pieceOfCode, if_neg (by omega), Char.ofNat_toNat]

/-- The pieces of a text without surrogates denote its characters. -/
theorem charsOfPieces_map_char (cs : List Char) : charsOfPieces (cs.map .char) = some cs := by
  induction cs with
  | nil => rfl
  | cons c cs ih => simp [charsOfPieces, ih]

namespace Lexer

variable {pieces : List Piece} {tokens : List Token}

/-- What is written for a character inside a string is read as that character. -/
theorem foldlM_escapedChar (c : Char) : (escapedChar c).foldlM push? ⟨.string pieces, tokens⟩ =
    some ⟨.string (.char c :: pieces), tokens⟩ := by
  unfold escapedChar
  split_ifs with hquote hbackslash hb hf hn hr ht hcontrol
  · subst hquote; rfl
  · subst hbackslash; rfl
  · subst hb; rfl
  · subst hf; rfl
  · subst hn; rfl
  · subst hr; rfl
  · subst ht; rfl
  · have hlt : c.toNat < 32 := hcontrol
    have hhigh := hexValue_hexDigit (c.toNat / 16 % 16) (by omega)
    have hlow := hexValue_hexDigit (c.toNat % 16) (by omega)
    have hzero : hexValue '0' = some 0 := rfl
    have hcode : c.toNat / 16 % 16 * 16 + c.toNat % 16 = c.toNat := by omega
    have hpiece := pieceOfCode_toNat (by omega : c.toNat < 0xD800)
    simp [push?, hexDigit, hzero, hhigh, hlow, hcode, hpiece]
  · simp [push?, hquote, hbackslash, hcontrol]

/-- What is written for a text is read as that text. -/
theorem foldlM_writeText (text : Text) : (writeText text).foldlM push? ⟨.between, tokens⟩ =
    some ⟨.between, .string text :: tokens⟩ := by
  have hinner : ∀ (cs : List Char) (pieces : List Piece),
      (cs.flatMap escapedChar).foldlM push? ⟨.string pieces, tokens⟩ =
        some ⟨.string ((cs.map .char).reverse ++ pieces), tokens⟩ := by
    intro cs
    induction cs with
    | nil => exact fun pieces => rfl
    | cons c cs ih =>
      intro pieces
      rw [List.flatMap_cons, List.foldlM_append, foldlM_escapedChar, Option.bind_eq_bind,
        Option.bind_some, ih, List.map_cons, List.reverse_cons, List.append_assoc,
        List.singleton_append]
  cases text with
  | none => rfl
  | some s =>
    have hopen : push? ⟨.between, tokens⟩ '"' = some ⟨.string [], tokens⟩ := rfl
    have hclose : push? ⟨.string (s.toList.map .char).reverse, tokens⟩ '"' =
        some ⟨.between, .string (some s) :: tokens⟩ := by
      simp [push?, tokenOfPieces, charsOfPieces_map_char]
    simp only [writeText, List.cons_append, List.foldlM_cons, List.foldlM_append, hopen, hinner,
      List.append_nil, List.foldlM_nil, hclose, Option.bind_eq_bind, Option.bind_some]
    rfl

end Lexer

end Covering.Json
