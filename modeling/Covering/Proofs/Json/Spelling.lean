import Covering.Proofs.Json.RoundTrip
import Mathlib.Data.List.Induction

/-!
# Ways to spell a value

A value can be spelt in many ways: with any blanks between its tokens, the members of an object in
any order, and any character of a text as itself or by an escape. Every spelling is read, and what
is read is the value up to the order of members: `Writes.exists_parse?`.
-/

namespace Covering.Json
set_option autoImplicit false

/-! ## Spellings of a text -/

/-- A hexadecimal digit, in either case, of a number below 16. -/
def IsHex (digit : Char) (n : Nat) : Prop :=
  "0123456789abcdef".toList[n]? = some digit ∨ "0123456789ABCDEF".toList[n]? = some digit

/-- Four hexadecimal digits and the number that they denote. -/
inductive SpellsCode : List Char → Nat → Prop
  | digits {a b c d : Char} {i j k l : Nat} (first : IsHex a i) (second : IsHex b j)
      (third : IsHex c k) (fourth : IsHex d l) :
    SpellsCode [a, b, c, d] (((i * 16 + j) * 16 + k) * 16 + l)

/-- What may follow a backslash, and the character that it then stands for. -/
def shortEscapes : List (Char × Char) :=
  [('"', '"'), ('\\', '\\'), ('/', '/'), ('b', '\x08'), ('f', '\x0c'), ('n', '\n'), ('r', '\r'),
    ('t', '\t')]

/-- The ways to spell a character of a text: as itself, by a short escape, by its code, or by the
codes of two surrogates. -/
inductive SpellsChar : List Char → Char → Prop
  | plain {c : Char} (printable : ' ' ≤ c) (quote : c ≠ '"') (backslash : c ≠ '\\') :
    SpellsChar [c] c
  | short {mark c : Char} (escape : (mark, c) ∈ shortEscapes) : SpellsChar ['\\', mark] c
  | code {digits : List Char} {c : Char} (code : SpellsCode digits c.toNat) :
    SpellsChar ('\\' :: 'u' :: digits) c
  | pair {lead trail : List Char} {high low : Nat} {c : Char}
      (leads : SpellsCode lead (0xD800 + high)) (trails : SpellsCode trail (0xDC00 + low))
      (highRange : high < 0x400) (lowRange : low < 0x400)
      (denotes : c.toNat = 0x10000 + high * 0x400 + low) :
    SpellsChar ('\\' :: 'u' :: lead ++ '\\' :: 'u' :: trail) c

/-- The ways to spell characters one after the other. -/
inductive SpellsChars : List Char → List Char → Prop
  | nil : SpellsChars [] []
  | cons {text rest : List Char} {c : Char} {cs : List Char} (first : SpellsChar text c)
      (others : SpellsChars rest cs) : SpellsChars (text ++ rest) (c :: cs)

/-- The ways to spell a text, between quotes. -/
inductive SpellsText : List Char → String → Prop
  | quoted {text : List Char} {s : String} (chars : SpellsChars text s.toList) :
    SpellsText ('"' :: text ++ ['"']) s

/-! ## Number literals -/

/-- An integer without sign and without leading zeros. -/
inductive IsNatural : List Char → Prop
  | zero : IsNatural ['0']
  | positive {ds : List Char} (digits : isDigits ds) (lead : ds.head? ≠ some '0') : IsNatural ds

/-- A fraction with its point, or nothing. -/
inductive IsFractional : List Char → Prop
  | none : IsFractional []
  | point {ds : List Char} (digits : isDigits ds) : IsFractional ('.' :: ds)

/-- An exponent with its mark, or nothing. -/
inductive IsScale : List Char → Prop
  | none : IsScale []
  | mark {c : Char} {sign ds : List Char} (marked : c = 'e' ∨ c = 'E')
      (signed : sign = [] ∨ sign = ['+'] ∨ sign = ['-']) (digits : isDigits ds) :
    IsScale (c :: (sign ++ ds))

/-- A number literal: an integer, maybe with a minus sign, a fraction and an exponent. -/
inductive IsLiteral : List Char → Prop
  | parts {sign integer fraction scale : List Char} (signed : sign = [] ∨ sign = ['-'])
      (natural : IsNatural integer) (fractional : IsFractional fraction) (scaled : IsScale scale) :
    IsLiteral (sign ++ (integer ++ (fraction ++ scale)))

/-! ## Spellings of a value -/

/-- What may stand between tokens. -/
def Blank (gap : List Char) : Prop := ∀ c ∈ gap, isBlank c

/-- The ways to write a key, with blanks around it. -/
inductive WritesKey : List Char → String → Prop
  | padded {before text after : List Char} {name : String} (blank : Blank before)
      (h : SpellsText text name) (blank' : Blank after) : WritesKey (before ++ (text ++ after)) name

mutual

/-- The ways to spell a value, with no blanks around it. The members of an object may come in any
order. -/
inductive Spells : List Char → Value → Prop
  | null : Spells "null".toList .null
  | true : Spells "true".toList (.bool true)
  | false : Spells "false".toList (.bool false)
  | number {literal : List Char} (h : IsLiteral literal) : Spells literal (.number literal)
  | string {text : List Char} {s : String} (h : SpellsText text s) :
    Spells text (.string (some s))
  | noItems {gap : List Char} (blank : Blank gap) : Spells ('[' :: gap ++ [']']) (.array [])
  | items {text : List Char} {items : List Value} (h : WritesItems text items) :
    Spells ('[' :: text ++ [']']) (.array items)
  | noMembers {gap : List Char} (blank : Blank gap) :
    Spells ('\x7b' :: gap ++ ['\x7d']) (.object [])
  | members {text : List Char} {written members : List (Text × Value)}
      (h : WritesMembers text written) (order : written.Perm members) :
    Spells ('\x7b' :: text ++ ['\x7d']) (.object members)

/-- The ways to write a value, with blanks around it. -/
inductive Writes : List Char → Value → Prop
  | padded {before text after : List Char} {v : Value} (blank : Blank before) (h : Spells text v)
      (blank' : Blank after) : Writes (before ++ (text ++ after)) v

/-- The ways to write items with commas between them. -/
inductive WritesItems : List Char → List Value → Prop
  | last {text : List Char} {v : Value} (h : Writes text v) : WritesItems text [v]
  | more {text rest : List Char} {v : Value} {items : List Value} (h : Writes text v)
      (others : WritesItems rest items) : WritesItems (text ++ ',' :: rest) (v :: items)

/-- The ways to write members with commas between them. -/
inductive WritesMembers : List Char → List (Text × Value) → Prop
  | last {key text : List Char} {name : String} {v : Value} (named : WritesKey key name)
      (h : Writes text v) : WritesMembers (key ++ ':' :: text) [(some name, v)]
  | more {key text rest : List Char} {name : String} {v : Value} {members : List (Text × Value)}
      (named : WritesKey key name) (h : Writes text v) (others : WritesMembers rest members) :
    WritesMembers (key ++ ':' :: (text ++ ',' :: rest)) ((some name, v) :: members)

end

variable {text rest cs digits literal gap : List Char} {c : Char} {n : Nat} {s : String}
  {tokens : List Token} {v : Value}

/-! ## Plain spellings -/

/-- Characters that need no escape spell themselves. -/
theorem spellsChars_self (h : ∀ c ∈ cs, ' ' ≤ c ∧ c ≠ '"' ∧ c ≠ '\\') : SpellsChars cs cs := by
  induction cs with
  | nil => exact .nil
  | cons c cs ih =>
    obtain ⟨⟨printable, quote, backslash⟩, hothers⟩ := List.forall_mem_cons.1 h
    exact .cons (.plain printable quote backslash) (ih hothers)

theorem blank_nil : Blank [] := by simp [Blank]

theorem Spells.writes (h : Spells text v) : Writes text v := by
  simpa using Writes.padded blank_nil h blank_nil

theorem SpellsText.writesKey (h : SpellsText text s) : WritesKey text s := by
  simpa using WritesKey.padded blank_nil h blank_nil

/-! ## Reading a text -/

theorem hexValue_of_isHex (h : IsHex c n) : hexValue c = some n := by
  have hread : ∀ all : List Char, all.length = 16 →
      (∀ m < 16, all[m]?.bind hexValue = some m) → all[n]? = some c → hexValue c = some n := by
    intro all hlength hall hc
    obtain ⟨hlt, -⟩ := List.getElem?_eq_some_iff.1 hc
    have hn := hall n (hlength ▸ hlt)
    rwa [hc] at hn
  rcases h with h | h
  · exact hread _ rfl (by decide) h
  · exact hread _ rfl (by decide) h

namespace Lexer

variable {pieces : List Piece} {found : List Token}

/-- A code is read as its piece. -/
theorem foldlM_code (h : SpellsCode digits n) :
    digits.foldlM push? ⟨.code pieces 0 0, found⟩ =
      some ⟨.string (pieceOfCode n :: pieces), found⟩ := by
  obtain ⟨ha, hb, hc, hd⟩ := h
  simp [push?, hexValue_of_isHex ha, hexValue_of_isHex hb, hexValue_of_isHex hc,
    hexValue_of_isHex hd]

/-- A character is read as pieces that denote it, whatever comes after them. -/
theorem foldlM_spellsChar (h : SpellsChar text c) : ∃ read : List Piece,
    (∀ pieces, text.foldlM push? ⟨.string pieces, found⟩ =
      some ⟨.string (read.reverse ++ pieces), found⟩) ∧
    ∀ rest, charsOfPieces (read ++ rest) = (charsOfPieces rest).map (c :: ·) := by
  have hescape : ∀ pieces, push? ⟨.string pieces, found⟩ '\\' = some ⟨.escape pieces, found⟩ :=
    fun _ => rfl
  have hcode : ∀ pieces, push? ⟨.escape pieces, found⟩ 'u' = some ⟨.code pieces 0 0, found⟩ :=
    fun _ => rfl
  cases h with
  | plain printable quote backslash =>
    refine ⟨[.char c], fun pieces => ?_, fun rest => rfl⟩
    simp [push?, quote, backslash, Char.not_lt.2 printable]
  | @short mark c escape =>
    refine ⟨[.char c], fun pieces => ?_, fun rest => rfl⟩
    have hmeant : mark ≠ 'u' ∧ unescape mark = some c := by
      simp only [shortEscapes, List.mem_cons, List.not_mem_nil, or_false, Prod.mk.injEq] at escape
      rcases escape with h | h | h | h | h | h | h | h <;> obtain ⟨rfl, rfl⟩ := h <;>
        exact ⟨by decide, rfl⟩
    simp [push?, hmeant]
  | code code =>
    refine ⟨[.char c], fun pieces => ?_, fun rest => rfl⟩
    have hpiece : pieceOfCode c.toNat = .char c := by
      have hvalid : c.toNat < 0xD800 ∨ 0xDFFF < c.toNat ∧ c.toNat < 0x110000 := c.valid
      rw [pieceOfCode, if_neg (by omega), Char.ofNat_toNat]
    simp [hescape, hcode, foldlM_code code, hpiece]
  | @pair lead trail high low _ leads trails highRange lowRange denotes =>
    have hlead : pieceOfCode (0xD800 + high) = .surrogate (0xD800 + high) := by
      rw [pieceOfCode, if_pos (by omega)]
    have htrail : pieceOfCode (0xDC00 + low) = .surrogate (0xDC00 + low) := by
      rw [pieceOfCode, if_pos (by omega)]
    refine ⟨[.surrogate (0xD800 + high), .surrogate (0xDC00 + low)], fun pieces => ?_,
      fun rest => ?_⟩
    · simp [List.foldlM_append, hescape, hcode, foldlM_code leads, foldlM_code trails, hlead,
        htrail]
    · have hchar : Char.ofNat (0x10000 + (0xD800 + high - 0xD800) * 0x400 +
          (0xDC00 + low - 0xDC00)) = c := by
        rw [Nat.add_sub_cancel_left, Nat.add_sub_cancel_left, ← denotes, Char.ofNat_toNat]
      rw [List.cons_append, List.singleton_append, charsOfPieces, if_pos (by omega), hchar]

theorem foldlM_spellsChars (h : SpellsChars text cs) : ∃ read : List Piece,
    (∀ pieces, text.foldlM push? ⟨.string pieces, found⟩ =
      some ⟨.string (read.reverse ++ pieces), found⟩) ∧ charsOfPieces read = some cs := by
  induction h with
  | nil => exact ⟨[], fun pieces => rfl, rfl⟩
  | cons first _ ih =>
    obtain ⟨read, hread, hdenote⟩ := @foldlM_spellsChar _ _ found first
    obtain ⟨others, hothers, hdenotes⟩ := ih
    refine ⟨read ++ others, fun pieces => ?_, by rw [hdenote, hdenotes]; rfl⟩
    rw [List.foldlM_append, hread, Option.bind_eq_bind, Option.bind_some, hothers,
      List.reverse_append, List.append_assoc]

end Lexer

/-- Every spelling of a text is read as that text. -/
theorem closes_spellsText (h : SpellsText text s) : Closes text [.string (some s)] := by
  obtain ⟨chars⟩ := h
  intro before
  obtain ⟨read, hread, hdenotes⟩ := @Lexer.foldlM_spellsChars _ _ before chars
  have hopen : Lexer.push? ⟨.between, before⟩ '"' = some ⟨.string [], before⟩ := rfl
  have hclose : Lexer.push? ⟨.string read.reverse, before⟩ '"' =
      some ⟨.between, .string (some s) :: before⟩ := by
    simp [Lexer.push?, tokenOfPieces, hdenotes]
  simp only [List.cons_append, List.foldlM_cons, List.foldlM_append, hopen, hread,
    Option.bind_eq_bind, Option.bind_some, List.append_nil, List.foldlM_nil, hclose]
  rfl

/-! ## Reading a number literal -/

theorem isDigit_of_isDigits (h : isDigits cs) (hc : c ∈ cs) : isDigit c :=
  (isDigits_iff.1 h).2 c hc

theorem isInteger_of_isNatural (h : IsNatural cs) : isInteger cs := by
  cases h with
  | zero => rfl
  | positive digits lead =>
    unfold isInteger
    split
    · rfl
    · exact absurd rfl lead
    · exact digits

theorem isFraction_of_isFractional (h : IsFractional cs) : isFraction cs := by
  cases h with
  | none => rfl
  | point digits => exact digits

/-- A scale begins with its mark, unless it is empty. -/
theorem IsScale.cases_mark (h : IsScale cs) : cs = [] ∨
    ∃ mark exponent, cs = mark :: exponent ∧ isExponentMark mark ∧ isExponent exponent := by
  cases h with
  | none => exact .inl rfl
  | @mark mark sign ds marked signed digits =>
    refine .inr ⟨mark, sign ++ ds, rfl, by simpa [isExponentMark] using marked, ?_⟩
    rcases signed with rfl | rfl | rfl
    · unfold isExponent
      split
      · next heq =>
        obtain rfl : ds = _ := heq
        exact absurd (isDigit_of_isDigits digits List.mem_cons_self) (by decide)
      · next heq =>
        obtain rfl : ds = _ := heq
        exact absurd (isDigit_of_isDigits digits List.mem_cons_self) (by decide)
      · exact digits
    · exact digits
    · exact digits

/-- A literal is cut where the lexer cuts it: at the exponent mark, and before that at the point. -/
theorem isUnsigned_append {integer fraction scale : List Char} (natural : IsNatural integer)
    (fractional : IsFractional fraction) (scaled : IsScale scale) :
    isUnsigned (integer ++ (fraction ++ scale)) := by
  have hdigits := isDigits_of_isInteger (isInteger_of_isNatural natural)
  have hunmarked : ∀ c, isDigit c ∨ c = '.' → (!isExponentMark c) = true := by
    rintro c (hc | rfl)
    · simp [isExponentMark, ne_of_isDigit hc (d := 'e') rfl, ne_of_isDigit hc (d := 'E') rfl]
    · rfl
  have hfraction : ∀ c ∈ fraction, isDigit c ∨ c = '.' := by
    cases fractional with
    | none => simp
    | point digits =>
      exact List.forall_mem_cons.2 ⟨.inr rfl, fun c hc => .inl (isDigit_of_isDigits digits hc)⟩
  have hscale : scale.takeWhile (!isExponentMark ·) = [] := by
    rcases scaled.cases_mark with rfl | ⟨mark, exponent, rfl, hmark, -⟩
    · rfl
    · simp [hmark]
  have hmantissa : (integer ++ (fraction ++ scale)).takeWhile (!isExponentMark ·) =
      integer ++ fraction := by
    rw [List.takeWhile_append_of_pos fun c hc =>
        hunmarked c (.inl (isDigit_of_isDigits hdigits hc)),
      List.takeWhile_append_of_pos fun c hc => hunmarked c (hfraction c hc), hscale,
      List.append_nil]
  have hpoint : fraction.takeWhile (· ≠ '.') = [] := by
    cases fractional with
    | none => rfl
    | point digits => rfl
  have hinteger : (integer ++ fraction).takeWhile (· ≠ '.') = integer := by
    have hdifferent : ∀ c ∈ integer, decide (c ≠ '.') = true := fun c hc =>
      decide_eq_true (ne_of_isDigit (isDigit_of_isDigits hdigits hc) rfl)
    rw [List.takeWhile_append_of_pos hdifferent, hpoint, List.append_nil]
  have hrest : (integer ++ (fraction ++ scale)).drop (integer ++ fraction).length = scale := by
    rw [← List.append_assoc, List.drop_left]
  simp only [isUnsigned, hmantissa, hinteger, hrest, List.drop_left,
    isInteger_of_isNatural natural, isFraction_of_isFractional fractional, Bool.true_and]
  rcases scaled.cases_mark with rfl | ⟨mark, exponent, rfl, -, hexponent⟩
  · rfl
  · exact hexponent

theorem isNumber_of_isLiteral (h : IsLiteral literal) : isNumber literal := by
  obtain ⟨signed, natural, fractional, scaled⟩ := h
  have hunsigned := isUnsigned_append natural fractional scaled
  rcases signed with rfl | rfl
  · obtain ⟨c, rest, hcons, hdigit, -⟩ := isUnsigned_eq_cons hunsigned
    unfold isNumber
    split
    · next heq =>
      obtain rfl : c = '-' := (List.cons.inj (hcons.symm.trans heq)).1
      exact absurd hdigit (by decide)
    · exact hunsigned
  · exact hunsigned

/-! ## Words -/

theorem digitChar_digitValue (h : isDigit c) :
    Nat.digitChar (digitValue c) = c ∧ digitValue c < 10 := by
  have hrange : '0' ≤ c ∧ c ≤ '9' := by simpa [isDigit] using h
  have hlow : 48 ≤ c.toNat := hrange.1
  have hhigh : c.toNat ≤ 57 := hrange.2
  have hvalue : digitValue c = c.toNat - 48 := rfl
  have hlt : digitValue c < 10 := by omega
  refine ⟨Char.toNat_inj.1 ?_, hlt⟩
  rw [Nat.toNat_digitChar_of_lt_ten hlt]
  omega

/-- Digits that do not begin with zero are those of the number that they denote. -/
theorem toDigits_natOfDigits_of_lead (digits : isDigits cs) (lead : cs.head? ≠ some '0') :
    0 < natOfDigits cs ∧ Nat.toDigits 10 (natOfDigits cs) = cs := by
  -- The last digit is the one that is read last and that division by ten gives.
  induction cs using List.reverseRecOn with
  | nil => cases digits
  | append_singleton cs c ih =>
    obtain ⟨hchar, hlt⟩ := digitChar_digitValue (isDigit_of_isDigits digits (c := c) (by simp))
    rw [natOfDigits_concat]
    by_cases hnil : cs = []
    · subst hnil
      have hne : digitValue c ≠ 0 := by
        intro hzero
        rw [hzero] at hchar
        exact lead (by simp [← hchar])
      have hempty : natOfDigits [] = 0 := rfl
      rw [hempty, Nat.zero_mul, Nat.zero_add, Nat.toDigits_of_lt_base hlt, hchar]
      exact ⟨by omega, rfl⟩
    · have hdigits : isDigits cs :=
        isDigits_iff.2 ⟨hnil, fun d hd => isDigit_of_isDigits digits (by simp [hd])⟩
      rw [List.head?_append_of_ne_nil _ hnil] at lead
      obtain ⟨hpos, hsame⟩ := ih hdigits lead
      have hmore := Nat.toDigits_append_toDigits (by decide : 1 < 10) hpos hlt
      rw [hsame, Nat.toDigits_of_lt_base hlt, hchar, Nat.mul_comm] at hmore
      exact ⟨by omega, hmore.symm⟩

/-- Digits without a leading zero are those of the number that they denote. -/
theorem toDigits_natOfDigits (h : IsNatural cs) : Nat.toDigits 10 (natOfDigits cs) = cs := by
  cases h with
  | zero => rfl
  | positive digits lead => exact (toDigits_natOfDigits_of_lead digits lead).2

/-- A literal of digits alone has no sign, fraction or exponent. -/
theorem isNatural_of_isDigits (h : IsLiteral literal) (digits : isDigits literal) :
    IsNatural literal := by
  obtain ⟨signed, natural, fractional, scaled⟩ := h
  rcases signed with rfl | rfl
  · cases fractional with
    | none =>
      cases scaled with
      | none => simpa using natural
      | @mark mark _ _ marked =>
        have hmark := isDigit_of_isDigits digits (c := mark) (by simp)
        rcases marked with rfl | rfl
        · exact absurd hmark (by decide)
        · exact absurd hmark (by decide)
    | point _ => exact absurd (isDigit_of_isDigits digits (c := '.') (by simp)) (by decide)
  · exact absurd (isDigit_of_isDigits digits (c := '-') (by simp)) (by decide)

/-- The only literal of a word is the decimal one. -/
theorem wordOfLiteral_eq_some_iff {w : UInt64} (h : IsLiteral literal) :
    wordOfLiteral literal = some w ↔ literal = Nat.toDigits 10 w.toNat := by
  constructor
  · intro hword
    simp only [wordOfLiteral, Bool.and_eq_true, decide_eq_true_eq] at hword
    split at hword
    · next hcond =>
      obtain ⟨digits, hlt⟩ := hcond
      obtain rfl := Option.some.inj hword
      rw [UInt64.toNat_ofNat_of_lt' hlt, toDigits_natOfDigits (isNatural_of_isDigits h digits)]
    · cases hword
  · rintro rfl
    exact wordOfLiteral_literalOfWord w

/-! ## Reading a value -/

/-- The values differ at most in the order of the members of their objects. -/
inductive Shuffled : Value → Value → Prop
  | refl (v : Value) : Shuffled v v
  | array {items items' : List Value} (h : List.Forall₂ Shuffled items items') :
    Shuffled (.array items) (.array items')
  | object {members middle members' : List (Text × Value)}
      (keys : members.map (·.1) = middle.map (·.1))
      (values : List.Forall₂ Shuffled (members.map (·.2)) (middle.map (·.2)))
      (order : middle.Perm members') : Shuffled (.object members) (.object members')

theorem endsLiteral_of_isBlank (h : isBlank c) : endsLiteral c := by
  have hcases : ((c = ' ' ∨ c = '\t') ∨ c = '\n') ∨ c = '\r' := by simpa [isBlank] using h
  rcases hcases with ((rfl | rfl) | rfl) | rfl <;> rfl

theorem Reads.append_blank (h : Reads text tokens) (blank : Blank gap) :
    Reads (text ++ gap) tokens := by
  cases gap with
  | nil => rwa [List.append_nil]
  | cons c gap =>
    have hend := h.append_closes (endsLiteral_of_isBlank (blank c List.mem_cons_self))
      (closes_blanks blank)
    rw [List.append_nil] at hend
    exact hend.reads

theorem closes_writesKey (h : WritesKey text s) :
    Closes (text ++ [':']) [.string (some s), .colon] := by
  obtain ⟨blank, spelt, blank'⟩ := h
  have hcolon : Closes [':'] [.colon] := closes_mark rfl
  have hall := (closes_blanks blank).append
    ((closes_spellsText spelt).append ((closes_blanks blank').append hcolon))
  simpa [List.append_assoc] using hall

/-- A container that holds something is read between its marks. -/
theorem Reads.between {left right : Char} {open_ close : Token} (h : Reads text tokens)
    (hleft : tokenOfMark left = some open_) (hright : tokenOfMark right = some close) :
    Reads (left :: text ++ [right]) (open_ :: tokens ++ [close]) :=
  (((closes_mark hleft).append_reads h).append_closes (endsLiteral_of_mark hright)
    (closes_mark hright)).reads

mutual

/-- Every spelling of a value is read as the tokens of a value that is the same but for the order of
its members. -/
theorem Spells.exists_reads {text : List Char} {v : Value} :
    Spells text v → ∃ read, Shuffled read v ∧ Reads text read.tokens
  | .null => ⟨_, .refl _, reads_word rfl⟩
  | .true => ⟨_, .refl _, reads_word rfl⟩
  | .false => ⟨_, .refl _, reads_word rfl⟩
  | .number h => ⟨_, .refl _, reads_number (isNumber_of_isLiteral h)⟩
  | .string h => ⟨_, .refl _, (closes_spellsText h).reads⟩
  | .noItems blank => ⟨.array [], .refl _, (closes_blanks blank).reads.between rfl rfl⟩
  | .items h => by
    obtain ⟨first, others, hsame, hread⟩ := h.exists_reads
    exact ⟨.array (first :: others), .array hsame, hread.between rfl rfl⟩
  | .noMembers blank => ⟨.object [], .refl _, (closes_blanks blank).reads.between rfl rfl⟩
  | .members h order => by
    obtain ⟨first, others, hkeys, hvalues, hread⟩ := h.exists_reads
    exact ⟨.object (first :: others), .object hkeys hvalues order, hread.between rfl rfl⟩

theorem Writes.exists_reads {text : List Char} {v : Value} :
    Writes text v → ∃ read, Shuffled read v ∧ Reads text read.tokens
  | .padded blank h blank' => by
    obtain ⟨read, hsame, hread⟩ := h.exists_reads
    exact ⟨read, hsame, (closes_blanks blank).append_reads (hread.append_blank blank')⟩

theorem WritesItems.exists_reads {text : List Char} {items : List Value} :
    WritesItems text items → ∃ first others, List.Forall₂ Shuffled (first :: others) items ∧
      Reads text (commaed (Value.tokensOfEach (first :: others)))
  | .last h => by
    obtain ⟨read, hsame, hread⟩ := h.exists_reads
    exact ⟨read, [], .cons hsame .nil, by simpa [Value.tokensOfEach, commaed] using hread⟩
  | .more h others => by
    obtain ⟨read, hsame, hread⟩ := h.exists_reads
    obtain ⟨first, rest, hsames, hreads⟩ := others.exists_reads
    refine ⟨read, first :: rest, .cons hsame hsames, ?_⟩
    have hcomma : Closes [','] [.comma] := closes_mark rfl
    have hall := (hread.append_closes rfl hcomma).append_reads hreads
    simpa [Value.tokensOfEach, commaed] using hall

theorem WritesMembers.exists_reads {text : List Char} {members : List (Text × Value)} :
    WritesMembers text members → ∃ first others,
      (first :: others).map (·.1) = members.map (·.1) ∧
      List.Forall₂ Shuffled ((first :: others).map (·.2)) (members.map (·.2)) ∧
      Reads text (commaed (Value.tokensOfMembers (first :: others)))
  | .last named h => by
    obtain ⟨read, hsame, hread⟩ := h.exists_reads
    refine ⟨(_, read), [], rfl, .cons hsame .nil, ?_⟩
    simpa [Value.tokensOfMembers, commaed] using (closes_writesKey named).append_reads hread
  | .more named h others => by
    obtain ⟨read, hsame, hread⟩ := h.exists_reads
    obtain ⟨first, rest, hkeys, hsames, hreads⟩ := others.exists_reads
    refine ⟨(_, read), first :: rest, congrArg (_ :: ·) hkeys, .cons hsame hsames, ?_⟩
    have hcomma : Closes [','] [.comma] := closes_mark rfl
    have hall := (closes_writesKey named).append_reads
      ((hread.append_closes rfl hcomma).append_reads hreads)
    simpa [Value.tokensOfMembers, commaed] using hall

end

/-- What is written of a value, in any way, is read as the value but for the order of its members. -/
theorem Writes.exists_parse? {text : String} (h : Writes text.toList v) :
    ∃ read, parse? text = some read ∧ Shuffled read v := by
  obtain ⟨read, hsame, hread⟩ := h.exists_reads
  exact ⟨read, hread.parse?, hsame⟩

/-! ## Values that can be written -/

/-- There is a way to write the value. -/
def Value.Writable (v : Value) : Prop := ∃ text, Writes text v

theorem Value.Writable.spelt (h : v.Writable) : ∃ text, Spells text v := by
  obtain ⟨_, h⟩ := h
  obtain ⟨_, h, _⟩ := h
  exact ⟨_, h⟩

theorem Value.Writable.isLiteral (h : (Value.number literal).Writable) : IsLiteral literal := by
  obtain ⟨_, h⟩ := h.spelt
  cases h with
  | number h => exact h

theorem WritesItems.writable {text : List Char} {items : List Value} :
    WritesItems text items → ∀ item ∈ items, item.Writable
  | .last h => List.forall_mem_singleton.2 ⟨_, h⟩
  | .more h others => List.forall_mem_cons.2 ⟨⟨_, h⟩, others.writable⟩

theorem WritesMembers.writable {text : List Char} {members : List (Text × Value)} :
    WritesMembers text members → ∀ m ∈ members, m.1.isSome ∧ m.2.Writable
  | .last _ h => List.forall_mem_singleton.2 ⟨rfl, _, h⟩
  | .more _ h others => List.forall_mem_cons.2 ⟨⟨rfl, _, h⟩, others.writable⟩

theorem Value.Writable.items {items : List Value} (h : (Value.array items).Writable) :
    ∀ item ∈ items, item.Writable := by
  obtain ⟨_, h⟩ := h.spelt
  cases h with
  | noItems blank => simp
  | items h => exact h.writable

theorem Value.Writable.members {members : List (Text × Value)}
    (h : (Value.object members).Writable) : ∀ m ∈ members, m.1.isSome ∧ m.2.Writable := by
  obtain ⟨_, h⟩ := h.spelt
  cases h with
  | noMembers blank => simp
  | members h order => exact fun m hm => h.writable m (order.mem_iff.2 hm)

end Covering.Json
