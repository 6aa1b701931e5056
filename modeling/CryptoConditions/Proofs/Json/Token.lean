import CryptoConditions.Json.Meaning
import CryptoConditions.Proofs.Json.Literal

/-! Tokens from the characters that are written for them. A string is scanned as the pieces that
its characters are written as, and these resolve to it. -/

namespace CryptoConditions.Json

section Pieces

def isNumbered (c : Char) : Bool :=
  decide (c.toNat < 32) && !(['\n', '\r', '\t', Char.ofNat 8, Char.ofNat 12].contains c)

def piece (c : Char) : Piece :=
  if isNumbered c then .unit c.toNat else .char c

variable {c : Char} {rest left : List Char} {found : List Piece}

theorem unit?_digitChar {n : Nat} (small : n < 256) :
    unit? '0' '0' (Numeral.digitChar (n / 16)) (Numeral.digitChar (n % 16)) = some n := by
  have zero : Numeral.hexValue? '0' = some 0 := by decide
  have high := Numeral.hexValue?_digitChar (n / 16) (by omega)
  have low := Numeral.hexValue?_digitChar (n % 16) (by omega)
  have joined : n / 16 * 16 + n % 16 = n := Nat.div_add_mod' n 16
  simp [unit?, zero, high, low, Numeral.value, joined]

theorem pieces_control (control : c.toNat < 32) (ok : pieces rest = some (found, left)) :
    pieces ('\\' :: controlEscape c ++ rest) = some (piece c :: found, left) := by
  unfold controlEscape
  split
  · next same => simp [same, pieces, piece, isNumbered, shortEscape?, ok]
  split
  · next same => simp [same, pieces, piece, isNumbered, shortEscape?, ok]
  split
  · next same => simp [same, pieces, piece, isNumbered, shortEscape?, ok]
  split
  · next same => simp [same, pieces, piece, isNumbered, shortEscape?, ok]
  split
  · next same => simp [same, pieces, piece, isNumbered, shortEscape?, ok]
  · next newline carriage tab backspace feed =>
    have numbered : isNumbered c = true := by
      simp [isNumbered, control, newline, carriage, tab, backspace, feed]
    simp [pieces, piece, numbered, unit?_digitChar (Nat.lt_trans control (by decide)), ok]

theorem pieces_visible (quote : c ≠ '"') (escape : c ≠ '\\') (visible : 32 ≤ c.toNat)
    (ok : pieces rest = some (found, left)) :
    pieces (c :: rest) = some (.char c :: found, left) := by
  unfold pieces
  split
  · next empty => cases empty
  · next same => exact absurd (List.cons.inj same).1 quote
  · next same => exact absurd (List.cons.inj same).1 escape
  · next same => exact absurd (List.cons.inj same).1 escape
  · next same =>
    obtain ⟨rfl, rfl⟩ := List.cons.inj same
    simp [escape, visible, ok, guard]

theorem pieces_quotedChar (c : Char) (ok : pieces rest = some (found, left)) :
    pieces (quotedChar c ++ rest) = some (piece c :: found, left) := by
  unfold quotedChar
  split
  · next mark => rcases mark with rfl | rfl <;> simp [pieces, piece, isNumbered, shortEscape?, ok]
  · next plain =>
    rw [not_or] at plain
    split
    · next control => exact pieces_control control ok
    · next visible =>
      have shown : piece c = .char c := by simp [piece, isNumbered, visible]
      rw [shown]
      exact pieces_visible plain.1 plain.2 (Nat.not_lt.1 visible) ok

theorem pieces_quoted (chars rest : List Char) :
    pieces (chars.flatMap quotedChar ++ '"' :: rest) = some (chars.map piece, rest) := by
  induction chars with
  | nil => rfl
  | cons c chars ih =>
    rw [List.flatMap_cons, List.append_assoc]
    exact pieces_quotedChar c ih

theorem resolve_cons_piece (c : Char) {pieces : List Piece} {chars : List Char}
    (ok : resolve pieces = some chars) : resolve (piece c :: pieces) = some (c :: chars) := by
  unfold piece
  split
  · next numbered =>
    have control : c.toNat < 32 := by
      simp only [isNumbered, Bool.and_eq_true, decide_eq_true_eq] at numbered
      exact numbered.1
    have high : isHighSurrogate c.toNat = false := by
      simp only [isHighSurrogate, Bool.and_eq_false_iff, decide_eq_false_iff_not]
      omega
    have low : isLowSurrogate c.toNat = false := by
      simp only [isLowSurrogate, Bool.and_eq_false_iff, decide_eq_false_iff_not]
      omega
    have step : resolve (.unit c.toNat :: pieces) =
        (resolve pieces).bind fun chars => some (Char.ofNat c.toNat :: chars) := by
      rcases pieces with _ | ⟨_ | _, pieces⟩ <;> simp [resolve, high, low]
    rw [step, ok, Char.ofNat_toNat, Option.bind_some]
  · simp [resolve, ok]

theorem resolve_map_piece (chars : List Char) : resolve (chars.map piece) = some chars := by
  induction chars with
  | nil => rfl
  | cons c chars ih => exact resolve_cons_piece c ih

theorem text?_map_piece (text : String) : text? (text.toList.map piece) = some text := by
  rw [text?, resolve_map_piece, Option.map_some, String.ofList_toList]

end Pieces

section Tokens

/-- The tokens of characters, however much is left to take them from. -/
def Spells (chars : List Char) (toks : List Token) : Prop :=
  ∀ count, chars.length ≤ count → tokensWithin count chars = some toks

variable {chars rest : List Char} {toks : List Token}

theorem Spells.tokens (spells : Spells chars toks) : tokens chars = some toks :=
  spells _ (Nat.le_refl _)

theorem spells_nil : Spells [] [] := by
  intro count _
  cases count <;> rfl

theorem spells_blanks {blanks : List Char} (blank : ∀ c ∈ blanks, isBlank c = true)
    (spells : Spells rest toks) : Spells (blanks ++ rest) toks := by
  intro count enough
  rw [List.length_append] at enough
  have dropped : (blanks ++ rest).dropWhile isBlank = rest.dropWhile isBlank :=
    List.dropWhile_append_of_pos blank
  have read := spells count (by omega)
  unfold tokensWithin at read ⊢
  rwa [dropped]

theorem spells_token {c : Char} {tok : Token} (visible : isBlank c = false)
    (taken : token (c :: chars) = some (tok, rest)) (shorter : rest.length ≤ chars.length)
    (spells : Spells rest toks) : Spells (c :: chars) (tok :: toks) := by
  intro count enough
  rw [List.length_cons] at enough
  obtain ⟨count, rfl⟩ : ∃ less, count = less + 1 := ⟨count - 1, by omega⟩
  have read := spells count (by omega)
  have dropped : (c :: chars).dropWhile isBlank = c :: chars := by simp [visible]
  unfold tokensWithin
  rw [dropped]
  simp [taken, read]

theorem token_scan {c : Char} (starts : Literal.isDigit c = true ∨ c = '-') :
    token (c :: chars) =
      (Literal.scan (c :: chars)).map fun (literal, rest) => (.number literal, rest) := by
  unfold token
  split <;> first
    | rfl
    | next same => 
      obtain ⟨rfl, _⟩ := List.cons.inj same
      simp [Literal.isDigit, Numeral.decimalValue?] at starts

theorem visible_of_starts {c : Char} (starts : Literal.isDigit c = true ∨ c = '-') :
    isBlank c = false := by
  rw [← Bool.not_eq_true]
  intro blank
  simp only [isBlank, Bool.or_eq_true, beq_iff_eq] at blank
  rcases blank with ((rfl | rfl) | rfl) | rfl <;> exact absurd starts (by decide)

theorem spells_number {l : Literal} (plain : l.Plain) (stops : Literal.Stops rest)
    (spells : Spells rest toks) : Spells (l.chars ++ rest) (.number l :: toks) := by
  obtain ⟨c, more, first, starts⟩ := Literal.chars_eq_cons plain
  have scanned := Literal.scan_chars plain stops
  rw [first, List.cons_append] at scanned ⊢
  have taken : token (c :: (more ++ rest)) = some (.number l, rest) := by
    rw [token_scan starts, scanned]
    rfl
  refine spells_token (visible_of_starts starts) taken ?_ spells
  simp

theorem spells_string {text : List Char} (spells : Spells rest toks) :
    Spells ('"' :: text.flatMap quotedChar ++ '"' :: rest) (.string (text.map piece) :: toks) := by
  have taken : token ('"' :: text.flatMap quotedChar ++ '"' :: rest) =
      some (.string (text.map piece), rest) := by
    simp [token, pieces_quoted]
  refine spells_token (by decide) taken ?_ spells
  simp
  omega

end Tokens

end CryptoConditions.Json
