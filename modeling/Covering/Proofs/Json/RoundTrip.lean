import Covering.Proofs.Json.Literals
import Mathlib.Data.List.Forall2

/-!
# Reading what is written

A value is spelt by the same tokens in every layout: `Value.tokens`. The lexer finds these tokens in
the text written (`reads_write`), and the reader makes the value of them (`ofTokens?_tokens`). So
what is written of a value, on one line or spread over lines, is read as that value: `parse?_write`.
What stands for a number in it must be a number literal; all else can be anything.
-/

namespace Covering.Json
set_option autoImplicit false

/-- The items of a container with commas between them. -/
def commaed : List (List Token) → List Token
  | [] => []
  | first :: rest => first ++ rest.flatMap (.comma :: ·)

namespace Value

mutual

/-- The tokens that spell a value. -/
def tokens : Value → List Token
  | .null => [.null]
  | .bool value => [.bool value]
  | .number literal => [.number literal]
  | .string text => [.string text]
  | .array items => .leftBracket :: commaed (tokensOfEach items) ++ [.rightBracket]
  | .object members => .leftBrace :: commaed (tokensOfMembers members) ++ [.rightBrace]

/-- The tokens of each value of a list. -/
def tokensOfEach : List Value → List (List Token)
  | [] => []
  | value :: rest => value.tokens :: tokensOfEach rest

/-- The tokens of each member of an object. -/
def tokensOfMembers : List (Text × Value) → List (List Token)
  | [] => []
  | (key, value) :: rest => (.string key :: .colon :: value.tokens) :: tokensOfMembers rest

end

mutual

/-- Whether every number in a value has a number literal. -/
def hasNumbers : Value → Bool
  | .number literal => isNumber literal
  | .array items => eachHasNumbers items
  | .object members => membersHaveNumbers members
  | _ => true

/-- Whether this is so of each value of a list. -/
def eachHasNumbers : List Value → Bool
  | [] => true
  | value :: rest => value.hasNumbers && eachHasNumbers rest

/-- Whether this is so of the value of each member. -/
def membersHaveNumbers : List (Text × Value) → Bool
  | [] => true
  | (_, value) :: rest => value.hasNumbers && membersHaveNumbers rest

end

end Value

/-! ## Texts and their tokens -/

/-- Whether a character can neither go on a number nor a word. -/
def endsLiteral (c : Char) : Bool := !isNumberChar c && !isWordChar c

/-- The lexer finds `tokens` in `text` and is then between two tokens. -/
def Closes (text : List Char) (tokens : List Token) : Prop :=
  ∀ before, text.foldlM Lexer.push? ⟨.between, before⟩ = some ⟨.between, tokens.reverse ++ before⟩

/-- The lexer finds `tokens` in `text`, the last of which may go on. -/
def Reads (text : List Char) (tokens : List Token) : Prop :=
  ∀ before, ∃ l, text.foldlM Lexer.push? ⟨.between, before⟩ = some l ∧
    l.finish? = some (before.reverse ++ tokens)

variable {text text' gap : List Char} {tokens tokens' : List Token} {c : Char} {token : Token}

theorem Closes.reads (h : Closes text tokens) : Reads text tokens := fun before =>
  ⟨_, h before, by simp [Lexer.finish?]⟩

theorem closes_nil : Closes [] [] := fun _ => rfl

theorem closes_writeText (text : Text) : Closes (writeText text) [.string text] := fun _ =>
  Lexer.foldlM_writeText text

theorem Closes.append (h : Closes text tokens) (h' : Closes text' tokens') :
    Closes (text ++ text') (tokens ++ tokens') := by
  intro before
  rw [List.foldlM_append, h before, Option.bind_eq_bind, Option.bind_some, h', List.reverse_append,
    List.append_assoc]

theorem Closes.append_reads (h : Closes text tokens) (h' : Reads text' tokens') :
    Reads (text ++ text') (tokens ++ tokens') := by
  intro before
  obtain ⟨l, hl, hfinish⟩ := h' (tokens.reverse ++ before)
  refine ⟨l, ?_, by simpa using hfinish⟩
  rw [List.foldlM_append, h before, Option.bind_eq_bind, Option.bind_some, hl]

/-- A character that ends a number or word comes after it as it comes between two tokens. -/
theorem Lexer.push?_of_finish? {l : Lexer} (h : l.finish? = some tokens) (hc : endsLiteral c) :
    l.push? c = Lexer.push? ⟨.between, tokens.reverse⟩ c := by
  simp only [endsLiteral, Bool.and_eq_true, Bool.not_eq_true'] at hc
  obtain ⟨hnumber, hword⟩ := hc
  obtain ⟨place, found⟩ := l
  cases place with
  | between =>
    obtain rfl : found.reverse = tokens := by simpa [finish?] using h
    simp [push?]
  | word letters =>
    obtain ⟨token, htoken, rfl⟩ := Option.map_eq_some_iff.1 h
    simp [push?, hword, htoken]
  | number literal =>
    obtain ⟨token, htoken, rfl⟩ := Option.map_eq_some_iff.1 h
    simp [push?, hnumber, htoken]
  | string pieces => simp [finish?] at h
  | escape pieces => simp [finish?] at h
  | code pieces digits value => simp [finish?] at h

/-- What goes on with such a character leaves the tokens before it as they are. -/
theorem Reads.append_closes (h : Reads text tokens) (hc : endsLiteral c)
    (h' : Closes (c :: text') tokens') : Closes (text ++ c :: text') (tokens ++ tokens') := by
  intro before
  obtain ⟨l, hl, hfinish⟩ := h before
  have hnext := h' (before.reverse ++ tokens).reverse
  rw [List.foldlM_cons, ← Lexer.push?_of_finish? hfinish hc, ← List.foldlM_cons] at hnext
  rw [List.foldlM_append, hl, Option.bind_eq_bind, Option.bind_some, hnext]
  simp

/-! ## What is written -/

theorem closes_mark (h : tokenOfMark c = some token) : Closes [c] [token] := by
  unfold tokenOfMark at h
  split at h <;> cases h <;> exact fun _ => rfl

theorem endsLiteral_of_mark (h : tokenOfMark c = some token) : endsLiteral c := by
  unfold tokenOfMark at h
  split at h <;> first | rfl | cases h

theorem closes_blanks (h : ∀ c ∈ text, isBlank c) : Closes text [] := by
  induction text with
  | nil => exact closes_nil
  | cons c text ih =>
    obtain ⟨hc, hrest⟩ := List.forall_mem_cons.1 h
    have hfirst : Closes [c] [] := fun before => by simp [Lexer.push?, Lexer.begin?, hc]
    exact hfirst.append (ih hrest)

theorem Layout.isBlank_of_mem_gap {layout : Layout} : ∀ c ∈ layout.gap, isBlank c := by
  intro c hc
  cases layout with
  | line => cases hc
  | spread depth =>
    rcases List.mem_cons.1 hc with rfl | hc
    · rfl
    · rw [(List.mem_replicate.1 hc).2]
      rfl

theorem Layout.closes_colon (layout : Layout) : Closes layout.colon [.colon] := by
  cases layout with
  | line => exact closes_mark rfl
  | spread depth =>
    have hblank : Closes [' '] [] := closes_blanks (List.forall_mem_singleton.2 rfl)
    exact (closes_mark rfl).append hblank

theorem reads_word {word : List Char} (h : tokenOfWord word = some token) :
    Reads word [token] := by
  have hspelt : word = ['n', 'u', 'l', 'l'] ∨ word = ['t', 'r', 'u', 'e'] ∨
      word = ['f', 'a', 'l', 's', 'e'] := by
    unfold tokenOfWord at h
    split_ifs at h with hnull htrue hfalse
    · exact .inl hnull
    · exact .inr (.inl htrue)
    · exact .inr (.inr hfalse)
  have hfinish : ∀ before, Lexer.finish? ⟨.word word.reverse, before⟩ =
      some (before.reverse ++ [token]) := by
    intro before
    simp [Lexer.finish?, h]
  rcases hspelt with rfl | rfl | rfl <;> exact fun before => ⟨_, rfl, hfinish before⟩

theorem reads_number {literal : List Char} (h : isNumber literal) :
    Reads literal [.number literal] := by
  obtain ⟨c, rest, rfl, hc, hrest⟩ := isNumber_eq_cons h
  intro before
  have hbegin : Lexer.push? ⟨.between, before⟩ c = some ⟨.number [c], before⟩ := by
    rcases hc with rfl | hdigit
    · rfl
    · have hne : ∀ d, isDigit d = false → c ≠ d := fun _ => ne_of_isDigit hdigit
      simp [Lexer.push?, Lexer.begin?, isBlank, hdigit, hne ' ' rfl, hne '\t' rfl, hne '\n' rfl,
        hne '\r' rfl, hne '"' rfl]
  have hgo : ∀ (rest literal : List Char), (∀ d ∈ rest, isNumberChar d) →
      rest.foldlM Lexer.push? ⟨.number literal, before⟩ =
        some ⟨.number (rest.reverse ++ literal), before⟩ := by
    intro rest
    induction rest with
    | nil => exact fun literal _ => rfl
    | cons d rest ih =>
      intro literal h
      obtain ⟨hd, h⟩ := List.forall_mem_cons.1 h
      have hpush : Lexer.push? ⟨.number literal, before⟩ d =
          some ⟨.number (d :: literal), before⟩ := by simp [Lexer.push?, hd]
      rw [List.foldlM_cons, hpush, Option.bind_eq_bind, Option.bind_some, ih _ h]
      simp
  refine ⟨_, by rw [List.foldlM_cons, hbegin, Option.bind_eq_bind, Option.bind_some, hgo _ _ hrest],
    ?_⟩
  simp [Lexer.finish?, tokenOfNumber, h]

/-- Items after one another, with commas and gaps between them. -/
theorem Reads.append_items {items : List (List Char)} {lists : List (List Token)}
    (h : Reads text tokens) (hgap : Closes gap []) (hitems : List.Forall₂ Reads items lists) :
    Reads (text ++ items.flatMap fun item => ',' :: gap ++ item)
      (tokens ++ lists.flatMap (.comma :: ·)) := by
  induction hitems generalizing text tokens with
  | nil => simpa using h
  | @cons item list items lists hitem hitems ih =>
    have hcomma : Closes (',' :: gap) [.comma] := (closes_mark rfl).append hgap
    have hmore := (h.append_closes rfl hcomma).append_reads (ih hitem)
    simpa [List.append_assoc] using hmore

/-- A container with its marks. -/
theorem closes_writeItems {layout : Layout} {left right : Char} {open_ close : Token}
    {items : List (List Char)} {lists : List (List Token)}
    (hleft : tokenOfMark left = some open_) (hright : tokenOfMark right = some close)
    (h : List.Forall₂ Reads items lists) :
    Closes (writeItems layout left right items) (open_ :: commaed lists ++ [close]) := by
  cases h with
  | nil => exact (closes_mark hleft).append (closes_mark hright)
  | @cons item list items lists hitem hitems =>
    have hgap : Closes layout.deeper.gap [] := closes_blanks Layout.isBlank_of_mem_gap
    have hinner := ((closes_mark hleft).append hgap).append_reads (hitem.append_items hgap hitems)
    have hend : Closes (layout.gap ++ [right]) [close] :=
      (closes_blanks Layout.isBlank_of_mem_gap).append (closes_mark hright)
    have hall : Closes
        (left :: layout.deeper.gap ++ (item ++ items.flatMap fun item =>
          ',' :: layout.deeper.gap ++ item) ++ (layout.gap ++ [right]))
        (open_ :: (list ++ lists.flatMap (.comma :: ·)) ++ [close]) := by
      cases layout with
      | line => exact hinner.append_closes (endsLiteral_of_mark hright) hend
      | spread depth => exact hinner.append_closes rfl hend
    simpa [writeItems, commaed, List.append_assoc] using hall

mutual

/-- What is written of a value is read as its tokens. -/
theorem reads_write (layout : Layout) : ∀ v : Value, v.hasNumbers → Reads (write layout v) v.tokens
  | .null, _ => reads_word rfl
  | .bool true, _ => reads_word rfl
  | .bool false, _ => reads_word rfl
  | .number _, h => reads_number h
  | .string text, _ => (closes_writeText text).reads
  | .array items, h => (closes_writeItems rfl rfl (reads_writeEach layout.deeper items h)).reads
  | .object members, h =>
    (closes_writeItems rfl rfl (reads_writeMembers layout.deeper members h)).reads

theorem reads_writeEach (layout : Layout) : ∀ items : List Value, Value.eachHasNumbers items →
    List.Forall₂ Reads (writeEach layout items) (Value.tokensOfEach items)
  | [], _ => .nil
  | value :: rest, h => by
    obtain ⟨hvalue, hrest⟩ := Bool.and_eq_true_iff.1 h
    exact .cons (reads_write layout value hvalue) (reads_writeEach layout rest hrest)

theorem reads_writeMembers (layout : Layout) : ∀ members : List (Text × Value),
    Value.membersHaveNumbers members →
    List.Forall₂ Reads (writeMembers layout members) (Value.tokensOfMembers members)
  | [], _ => .nil
  | (key, value) :: rest, h => by
    obtain ⟨hvalue, hrest⟩ := Bool.and_eq_true_iff.1 h
    have hmember := ((closes_writeText key).append layout.closes_colon).append_reads
      (reads_write layout value hvalue)
    exact .cons hmember (reads_writeMembers layout rest hrest)

end

/-! ## Reading tokens -/

namespace Reader

variable {stack : List Open}

/-- Where a container could end as well, a value begins as it does elsewhere. -/
theorem foldlM_tokens_valueOrEnd (v : Value) : v.tokens.foldlM push? ⟨.valueOrEnd, stack⟩ =
    v.tokens.foldlM push? ⟨.value, stack⟩ := by
  cases v <;> rfl

mutual

/-- The tokens of a value put it where it belongs. -/
theorem foldlM_tokens (stack : List Open) : ∀ v : Value,
    v.tokens.foldlM push? ⟨.value, stack⟩ = put? v stack
  | .null | .bool _ | .number _ | .string _ => by
    simp [Value.tokens, push?, begin?]
  | .array [] => by simp [Value.tokens, Value.tokensOfEach, commaed, push?, begin?, close?]
  | .array (value :: rest) => by
    have hopen : push? ⟨.value, stack⟩ .leftBracket = some ⟨.valueOrEnd, .array [] :: stack⟩ := rfl
    have hclose : push? ⟨.commaOrEnd, .array (rest.reverse ++ [value]) :: stack⟩ .rightBracket =
        put? (.array (value :: rest)) stack := by simp [push?, close?]
    simp only [Value.tokens, Value.tokensOfEach, commaed, List.cons_append, List.foldlM_cons,
      List.foldlM_append, hopen, Option.bind_eq_bind, Option.bind_some, foldlM_tokens_valueOrEnd,
      foldlM_tokens (.array [] :: stack) value, put?, foldlM_items stack [value] rest, hclose,
      List.foldlM_nil, Option.pure_def, Option.bind_fun_some]
  | .object [] => by simp [Value.tokens, Value.tokensOfMembers, commaed, push?, begin?, close?]
  | .object ((key, value) :: rest) => by
    have hopen : push? ⟨.value, stack⟩ .leftBrace = some ⟨.keyOrEnd, .object [] :: stack⟩ := rfl
    have hkey : push? ⟨.keyOrEnd, .object [] :: stack⟩ (.string key) =
        some ⟨.colon, .member [] key :: stack⟩ := rfl
    have hcolon : push? ⟨.colon, .member [] key :: stack⟩ .colon =
        some ⟨.value, .member [] key :: stack⟩ := rfl
    have hclose : push? ⟨.commaOrEnd, .object (rest.reverse ++ [(key, value)]) :: stack⟩
        .rightBrace = put? (.object ((key, value) :: rest)) stack := by simp [push?, close?]
    simp only [Value.tokens, Value.tokensOfMembers, commaed, List.cons_append, List.foldlM_cons,
      List.foldlM_append, hopen, hkey, hcolon, Option.bind_eq_bind, Option.bind_some,
      foldlM_tokens (.member [] key :: stack) value, put?,
      foldlM_members stack [(key, value)] rest, hclose, List.foldlM_nil, Option.pure_def,
      Option.bind_fun_some]

/-- The tokens of further items add these to an array. -/
theorem foldlM_items (stack : List Open) (before : List Value) : ∀ items : List Value,
    ((Value.tokensOfEach items).flatMap (.comma :: ·)).foldlM push?
        ⟨.commaOrEnd, .array before :: stack⟩ =
      some ⟨.commaOrEnd, .array (items.reverse ++ before) :: stack⟩
  | [] => rfl
  | value :: rest => by
    have hcomma : push? ⟨.commaOrEnd, .array before :: stack⟩ .comma =
        some ⟨.value, .array before :: stack⟩ := rfl
    simp only [Value.tokensOfEach, List.flatMap_cons, List.cons_append, List.foldlM_cons,
      List.foldlM_append, hcomma, Option.bind_eq_bind, Option.bind_some,
      foldlM_tokens (.array before :: stack) value, put?,
      foldlM_items stack (value :: before) rest, List.reverse_cons, List.append_assoc,
      List.cons_append, List.nil_append]

/-- The tokens of further members add these to an object. -/
theorem foldlM_members (stack : List Open) (before : List (Text × Value)) :
    ∀ members : List (Text × Value),
    ((Value.tokensOfMembers members).flatMap (.comma :: ·)).foldlM push?
        ⟨.commaOrEnd, .object before :: stack⟩ =
      some ⟨.commaOrEnd, .object (members.reverse ++ before) :: stack⟩
  | [] => rfl
  | (key, value) :: rest => by
    have hcomma : push? ⟨.commaOrEnd, .object before :: stack⟩ .comma =
        some ⟨.key, .object before :: stack⟩ := rfl
    have hkey : push? ⟨.key, .object before :: stack⟩ (.string key) =
        some ⟨.colon, .member before key :: stack⟩ := rfl
    have hcolon : push? ⟨.colon, .member before key :: stack⟩ .colon =
        some ⟨.value, .member before key :: stack⟩ := rfl
    simp only [Value.tokensOfMembers, List.flatMap_cons, List.cons_append, List.foldlM_cons,
      List.foldlM_append, hcomma, hkey, hcolon, Option.bind_eq_bind, Option.bind_some,
      foldlM_tokens (.member before key :: stack) value, put?,
      foldlM_members stack ((key, value) :: before) rest, List.reverse_cons, List.append_assoc,
      List.cons_append, List.nil_append]

end

end Reader

/-- The tokens of a value spell it. -/
theorem ofTokens?_tokens (v : Value) : ofTokens? v.tokens = some v := by
  rw [ofTokens?, Reader.start, Reader.foldlM_tokens]
  rfl

/-- A text whose tokens spell a value is read as that value. -/
theorem Reads.parse? {text : String} {v : Value} (h : Reads text.toList v.tokens) :
    parse? text = some v := by
  obtain ⟨l, hl, hfinish⟩ := h []
  have htokens : tokens? text.toList = some v.tokens := by
    rw [tokens?, Lexer.start, hl]
    exact hfinish
  rw [Json.parse?, htokens, Option.bind_some, ofTokens?_tokens]

/-- What is written of a value, in any layout, is read as that value. -/
theorem parse?_write (layout : Layout) {v : Value} (h : v.hasNumbers) :
    parse? (String.ofList (write layout v)) = some v := by
  apply Reads.parse?
  rw [String.toList_ofList]
  exact reads_write layout v h

end Covering.Json
