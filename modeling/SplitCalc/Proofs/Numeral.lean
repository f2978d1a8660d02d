import SplitCalc.Decimal.Literal

/-!
# Numerals

The grammar of decimal literals as data: a `Numeral` is an optional sign, the digits before
the point, the digits behind it if there is a point, and an exponent if there is one. It
carries the proofs that its digits are digits and that it has at least one, so every numeral
has a text and a reading.

The reading is exact and knows no bounds: all digits make one integer (`Numeral.unscaled`),
and the digits behind the point less the exponent make the scale (`Numeral.scale`).
`Numeral.parse?_text` is the main statement: the parser takes the text of every numeral apart
into the parts of that numeral. Every text that parses is the text of a numeral, so the texts
that are read are known exactly (`Decimal.read?_iff_exists_numeral`). The last section says
where the signs of a numeral stand and what its first and its last character are.
-/

namespace SplitCalc

/-! ### Signs -/

/-- A sign as a text writes it. -/
inductive WrittenSign
  /-- No sign. -/
  | absent
  /-- The sign `+`. -/
  | plus
  /-- The sign `-`. -/
  | minus
deriving DecidableEq

namespace WrittenSign

/-- The text of a sign. -/
def text : WrittenSign → Text
  | absent => []
  | plus => ['+']
  | minus => ['-']

/-- Is the sign a minus? -/
def isMinus : WrittenSign → Bool
  | absent => false
  | plus => false
  | minus => true

end WrittenSign

/-- A digit is no sign. -/
theorem ne_sign_of_isDigit {c : Char} (h : c.isDigit) : c ≠ '-' ∧ c ≠ '+' := by
  constructor <;> rintro rfl <;> simp at h

/-- A sign is split off in front of any text that does not begin with one itself. -/
theorem Literal.splitSign_append {sign : WrittenSign} {rest : Text}
    (h : ∀ c ∈ rest.head?, c ≠ '-' ∧ c ≠ '+') :
    Literal.splitSign (sign.text ++ rest) = (sign.isMinus, rest) := by
  cases sign with
  | absent =>
    -- nothing is written, so what follows must not look like a sign
    rw [WrittenSign.text, List.nil_append, Literal.splitSign.eq_def]
    split
    · exact absurd rfl (h '-' rfl).1
    · exact absurd rfl (h '+' rfl).2
    · rfl
  | plus => rfl
  | minus => rfl

/-! ### Exponents -/

/-- An exponent as a text writes it. -/
structure WrittenExponent where
  /-- The letter in front. -/
  letter : Char
  /-- The sign behind the letter. -/
  sign : WrittenSign
  /-- The digits behind the sign. -/
  digits : Text
  /-- The letter is `e` or `E`. -/
  letter_eq : letter = 'e' ∨ letter = 'E'
  /-- The digits are digits. -/
  isDigit_of_mem : ∀ c ∈ digits, c.isDigit
  /-- There is at least one digit. -/
  digits_ne_nil : digits ≠ []

namespace WrittenExponent

/-- The capital letter is one of the two. -/
theorem capital_eq : 'E' = 'e' ∨ 'E' = 'E' :=
  Or.inr rfl

/-- The text of an exponent. -/
def text (e : WrittenExponent) : Text :=
  e.letter :: (e.sign.text ++ e.digits)

/-- The integer that an exponent writes. -/
def value (e : WrittenExponent) : Int :=
  Decimal.signed e.sign.isMinus (Digits.value e.digits)

/-- The parser reads a written exponent behind its letter. -/
theorem parseExponent?_append (e : WrittenExponent) :
    Literal.parseExponent? (e.sign.text ++ e.digits) = some e.value := by
  have hhead : ∀ c ∈ e.digits.head?, c ≠ '-' ∧ c ≠ '+' := fun c hc =>
    ne_sign_of_isDigit (e.isDigit_of_mem c (List.mem_of_mem_head? hc))
  rw [Literal.parseExponent?, Literal.splitSign_append hhead]
  exact if_pos ⟨List.all_eq_true.2 e.isDigit_of_mem, e.digits_ne_nil⟩

end WrittenExponent

/-! ### Numerals -/

/-- A decimal literal by its parts. -/
structure Numeral where
  /-- The sign in front. -/
  sign : WrittenSign
  /-- The digits before the point. -/
  whole : Text
  /-- The digits behind the point, if there is a point. -/
  fraction : Option Text
  /-- The exponent, if there is one. -/
  exponent : Option WrittenExponent
  /-- The digits before the point are digits. -/
  isDigit_of_mem_whole : ∀ c ∈ whole, c.isDigit
  /-- The digits behind the point are digits. -/
  isDigit_of_mem_fraction : ∀ c ∈ fraction.getD [], c.isDigit
  /-- There is at least one digit. -/
  digits_ne_nil : whole ++ fraction.getD [] ≠ []

namespace Numeral

/-- The digits of a numeral without its point. -/
def digits (n : Numeral) : Text :=
  n.whole ++ n.fraction.getD []

/-- The point and the digits behind it. -/
def pointText (n : Numeral) : Text :=
  n.fraction.elim [] ('.' :: ·)

/-- The text of the exponent. -/
def exponentText (n : Numeral) : Text :=
  n.exponent.elim [] WrittenExponent.text

/-- The text of a numeral. -/
def text (n : Numeral) : Text :=
  n.sign.text ++ ((n.whole ++ n.pointText) ++ n.exponentText)

/-- The exponent of a numeral, zero where none is written. -/
def exponentValue (n : Numeral) : Int :=
  n.exponent.elim 0 WrittenExponent.value

/-- The integer that the sign and all digits write. -/
def unscaled (n : Numeral) : Int :=
  Decimal.signed n.sign.isMinus (Digits.value n.digits)

/-- The number of digits behind the point less the exponent. -/
def scale (n : Numeral) : Int :=
  ((n.fraction.getD []).length : Int) - n.exponentValue

/-- The parts of a numeral as the parser gives them. -/
def literal (n : Numeral) : Literal :=
  ⟨n.sign.isMinus, n.digits, (n.fraction.getD []).length, n.exponentValue⟩

@[simp] theorem unscaled_literal (n : Numeral) : n.literal.unscaled = n.unscaled := rfl

@[simp] theorem scale_literal (n : Numeral) : n.literal.scale = n.scale := rfl

@[simp] theorem exponent_literal (n : Numeral) : n.literal.exponent = n.exponentValue := rfl

/-! ### Parsing the text of a numeral -/

/-- A run of characters of one kind ends where the first of another kind stands. -/
theorem takeWhile_dropWhile_append {p : Char → Bool} {run rest : Text}
    (hrun : ∀ c ∈ run, p c) (hrest : ∀ c ∈ rest.head?, p c = false) :
    (run ++ rest).takeWhile p = run ∧ (run ++ rest).dropWhile p = rest := by
  rw [List.takeWhile_append_of_pos hrun, List.dropWhile_append_of_pos hrun]
  cases rest with
  | nil => simp
  | cons c rest =>
    have hc : p c = false := hrest c rfl
    simp [hc]

/-- A digit is a character of a mantissa. -/
theorem isMantissa_of_isDigit {c : Char} (h : c.isDigit) : Literal.isMantissa c := by
  simp [Literal.isMantissa, h]

/-- Every character before the exponent is a character of a mantissa. -/
theorem isMantissa_of_mem (n : Numeral) {c : Char} (h : c ∈ n.whole ++ n.pointText) :
    Literal.isMantissa c := by
  rcases List.mem_append.1 h with hwhole | hpoint
  · exact isMantissa_of_isDigit (n.isDigit_of_mem_whole c hwhole)
  · have hfraction := n.isDigit_of_mem_fraction c
    rw [pointText] at hpoint
    cases hn : n.fraction with
    | none => simp [hn] at hpoint
    | some fraction =>
      simp only [hn, Option.elim_some, Option.getD_some, List.mem_cons] at hpoint hfraction
      rcases hpoint with rfl | hpoint
      · rfl
      · exact isMantissa_of_isDigit (hfraction hpoint)

/-- The exponent is empty or begins with a letter, which belongs to no mantissa. -/
theorem not_isMantissa_of_mem_head? (n : Numeral) {c : Char} (h : c ∈ n.exponentText.head?) :
    Literal.isMantissa c = false := by
  rw [exponentText] at h
  cases hn : n.exponent with
  | none => simp [hn] at h
  | some e =>
    obtain rfl : e.letter = c := by simpa [hn, WrittenExponent.text] using h
    rcases e.letter_eq with hletter | hletter <;> rw [hletter] <;> rfl

/-- The point and what stands behind it begin with no digit. -/
theorem not_isDigit_of_mem_head? (n : Numeral) {c : Char} (h : c ∈ n.pointText.head?) :
    c.isDigit = false := by
  rw [pointText] at h
  cases hn : n.fraction with
  | none => simp [hn] at h
  | some fraction =>
    obtain rfl : '.' = c := by simpa [hn] using h
    rfl

/-- Every digit of a numeral is a digit. -/
theorem isDigit_of_mem_digits (n : Numeral) {c : Char} (h : c ∈ n.digits) : c.isDigit := by
  rcases List.mem_append.1 h with hwhole | hfraction
  · exact n.isDigit_of_mem_whole c hwhole
  · exact n.isDigit_of_mem_fraction c hfraction

/-- Behind its point, the text of a fraction is its digits. -/
theorem drop_one_pointText (n : Numeral) : n.pointText.drop 1 = n.fraction.getD [] := by
  rw [pointText]
  cases n.fraction <;> rfl

/-- The mantissa of a numeral is taken apart at the point. -/
theorem parseMantissa?_append (n : Numeral) :
    Literal.parseMantissa? (n.whole ++ n.pointText) =
      some (n.digits, (n.fraction.getD []).length) := by
  obtain ⟨htake, hdrop⟩ := takeWhile_dropWhile_append n.isDigit_of_mem_whole
    fun _ => n.not_isDigit_of_mem_head?
  rw [Literal.parseMantissa?, htake, hdrop, drop_one_pointText]
  refine if_pos ⟨List.all_eq_true.2 fun c hc => ?_, n.digits_ne_nil⟩
  exact n.isDigit_of_mem_digits hc

/-- What follows the mantissa of a numeral is its exponent. -/
theorem parseTail?_exponentText (n : Numeral) :
    Literal.parseTail? n.exponentText = some n.exponentValue := by
  rw [exponentText, exponentValue]
  cases n.exponent with
  | none => rfl
  | some e =>
    rw [Option.elim_some, Option.elim_some, WrittenExponent.text, Literal.parseTail?,
      if_pos e.letter_eq, e.parseExponent?_append]

/-- Something stands between the sign and the exponent. -/
theorem whole_append_pointText_ne_nil (n : Numeral) : n.whole ++ n.pointText ≠ [] := by
  intro hnil
  rw [List.append_eq_nil_iff] at hnil
  refine n.digits_ne_nil ?_
  rw [hnil.1, ← drop_one_pointText, hnil.2]
  rfl

/-- Behind its sign, a numeral begins with a digit or a point. -/
theorem exists_head?_eq (n : Numeral) :
    ∃ c, ((n.whole ++ n.pointText) ++ n.exponentText).head? = some c ∧ Literal.isMantissa c := by
  obtain ⟨c, rest, hcons⟩ := List.exists_cons_of_ne_nil n.whole_append_pointText_ne_nil
  refine ⟨c, ?_, n.isMantissa_of_mem ?_⟩
  · rw [hcons]
    rfl
  · rw [hcons]
    exact List.mem_cons_self

/-- Behind its sign, a numeral does not begin with a sign. -/
theorem ne_sign_of_mem_head? (n : Numeral) {c : Char}
    (h : c ∈ ((n.whole ++ n.pointText) ++ n.exponentText).head?) : c ≠ '-' ∧ c ≠ '+' := by
  obtain ⟨d, hhead, hmantissa⟩ := n.exists_head?_eq
  obtain rfl : d = c := Option.some.inj (hhead.symm.trans h)
  constructor <;> rintro rfl <;> simp [Literal.isMantissa] at hmantissa

/-- **The text of a numeral parses into its parts.** -/
theorem parse?_text (n : Numeral) : Literal.parse? n.text = some n.literal := by
  obtain ⟨htake, hdrop⟩ := takeWhile_dropWhile_append (fun _ => n.isMantissa_of_mem)
    fun _ => n.not_isMantissa_of_mem_head?
  rw [Literal.parse?, text, Literal.splitSign_append fun _ => n.ne_sign_of_mem_head?]
  dsimp only
  rw [htake, hdrop, parseMantissa?_append, parseTail?_exponentText]
  rfl

/-- A numeral is read as a decimal when its exponent and its scale are words. -/
theorem read?_text_eq_some_iff (n : Numeral) {a : Decimal} :
    Decimal.read? n.text = some a ↔
      IsWord n.exponentValue ∧ a.unscaled = n.unscaled ∧ a.scale = n.scale := by
  rw [Decimal.read?, parse?_text, Option.bind_some, Literal.toDecimal?_eq_some_iff,
    exponent_literal, unscaled_literal, scale_literal]

end Numeral

/-! ### Every literal is a numeral -/

/-- What stands behind a split sign is the text without the sign that it wrote. -/
theorem Literal.exists_sign_of_splitSign (text : Text) :
    ∃ sign : WrittenSign, text = sign.text ++ (Literal.splitSign text).2 ∧
      sign.isMinus = (Literal.splitSign text).1 := by
  rw [Literal.splitSign.eq_def]
  split
  · exact ⟨.minus, rfl, rfl⟩
  · exact ⟨.plus, rfl, rfl⟩
  · exact ⟨.absent, rfl, rfl⟩

/-- A text that reads as an exponent is a sign and digits. -/
theorem WrittenExponent.exists_of_parseExponent? {letter : Char} {rest : Text} {value : Int}
    (hletter : letter = 'e' ∨ letter = 'E') (h : Literal.parseExponent? rest = some value) :
    ∃ e : WrittenExponent, e.text = letter :: rest ∧ e.value = value := by
  obtain ⟨sign, hrest, hsign⟩ := Literal.exists_sign_of_splitSign rest
  simp only [Literal.parseExponent?, Option.ite_none_right_eq_some, Option.some.injEq] at h
  obtain ⟨⟨hdigits, hne⟩, rfl⟩ := h
  refine ⟨⟨letter, sign, (Literal.splitSign rest).2, hletter, List.all_eq_true.1 hdigits, hne⟩,
    ?_, ?_⟩
  · rw [WrittenExponent.text, ← hrest]
  · rw [WrittenExponent.value, hsign]

/-- What may follow a mantissa is nothing or an exponent. -/
theorem Literal.exists_exponent_of_parseTail? {tail : Text} {value : Int}
    (h : Literal.parseTail? tail = some value) :
    (tail = [] ∧ value = 0) ∨ ∃ e : WrittenExponent, e.text = tail ∧ e.value = value := by
  cases tail with
  | nil =>
    rw [Literal.parseTail?, Option.some.injEq] at h
    exact Or.inl ⟨rfl, h.symm⟩
  | cons letter rest =>
    rw [Literal.parseTail?, Option.ite_none_right_eq_some] at h
    exact Or.inr (WrittenExponent.exists_of_parseExponent? h.1 h.2)

/-- A mantissa is digits, and a point with digits behind it if something follows them. -/
theorem Literal.exists_fraction_of_parseMantissa? {text digits : Text} {count : Nat}
    (hmantissa : ∀ c ∈ text, Literal.isMantissa c)
    (h : Literal.parseMantissa? text = some (digits, count)) :
    ∃ whole : Text, ∃ fraction : Option Text,
      text = whole ++ fraction.elim [] ('.' :: ·) ∧ digits = whole ++ fraction.getD [] ∧
        count = (fraction.getD []).length ∧ (∀ c ∈ digits, c.isDigit) ∧ digits ≠ [] := by
  simp only [Literal.parseMantissa?, Option.ite_none_right_eq_some, Option.some.injEq,
    Prod.mk.injEq] at h
  obtain ⟨⟨hall, hne⟩, rfl, rfl⟩ := h
  have hparts := List.takeWhile_append_dropWhile (p := Char.isDigit) (l := text)
  have hhead := List.head_dropWhile_not Char.isDigit (l := text)
  cases hdrop : text.dropWhile Char.isDigit with
  | nil =>
    rw [hdrop] at hall hne hparts
    exact ⟨text.takeWhile Char.isDigit, none, hparts.symm, rfl, rfl, List.all_eq_true.1 hall, hne⟩
  | cons c fraction =>
    -- no digit, but a character of a mantissa: it is the point
    have hpoint : c = '.' := by
      have hdigit : c.isDigit = false := by simpa [hdrop] using hhead (by simp [hdrop])
      have hc := hmantissa c (hparts ▸ List.mem_append_right _ (by simp [hdrop]))
      simpa [Literal.isMantissa, hdigit] using hc
    rw [hdrop] at hall hne hparts
    rw [hpoint] at hparts
    exact ⟨text.takeWhile Char.isDigit, some fraction, hparts.symm, rfl, rfl,
      List.all_eq_true.1 hall, hne⟩

/-- **The literals are the numerals.** A text parses exactly when it is the text of a numeral,
and then into its parts. -/
theorem Literal.parse?_eq_some_iff {text : Text} {literal : Literal} :
    Literal.parse? text = some literal ↔ ∃ n : Numeral, n.text = text ∧ n.literal = literal := by
  constructor
  · intro h
    obtain ⟨sign, htext, hsign⟩ := Literal.exists_sign_of_splitSign text
    simp only [Literal.parse?, Option.bind_eq_bind, Option.bind_eq_some_iff, Option.pure_def,
      Option.some.injEq] at h
    obtain ⟨⟨digits, count⟩, hmantissa, exponent, htail, rfl⟩ := h
    obtain ⟨whole, fraction, hbody, rfl, rfl, hdigit, hne⟩ :=
      Literal.exists_fraction_of_parseMantissa?
        (fun c hc => List.all_eq_true.1 List.all_takeWhile c hc) hmantissa
    obtain ⟨written, hwritten, hexponent⟩ : ∃ written : Option WrittenExponent,
        written.elim [] WrittenExponent.text =
            (Literal.splitSign text).2.dropWhile Literal.isMantissa ∧
          written.elim 0 WrittenExponent.value = exponent := by
      rcases Literal.exists_exponent_of_parseTail? htail with ⟨hnil, rfl⟩ | ⟨e, htext, rfl⟩
      · exact ⟨none, hnil.symm, rfl⟩
      · exact ⟨some e, htext, rfl⟩
    refine ⟨⟨sign, whole, fraction, written, fun c hc => hdigit c (List.mem_append_left _ hc),
      fun c hc => hdigit c (List.mem_append_right _ hc), hne⟩, ?_, ?_⟩
    · simp only [Numeral.text, Numeral.pointText, Numeral.exponentText]
      rw [← hbody, hwritten, List.takeWhile_append_dropWhile, ← htext]
    · simp only [Numeral.literal, Numeral.digits, Numeral.exponentValue]
      rw [hsign, hexponent]
  · rintro ⟨n, rfl, rfl⟩
    exact n.parse?_text

/-- A text that is read as a decimal is the text of a numeral. -/
theorem Numeral.exists_of_read? {text : Text} {a : Decimal} (h : Decimal.read? text = some a) :
    ∃ n : Numeral, n.text = text := by
  obtain ⟨literal, hparse, -⟩ := Decimal.read?_eq_some_iff.1 h
  obtain ⟨n, htext, -⟩ := Literal.parse?_eq_some_iff.1 hparse
  exact ⟨n, htext⟩

/-- A text is read as a decimal exactly when it is the text of a numeral in range with the
digits and the scale of this decimal. -/
theorem Numeral.read?_eq_some_iff_exists {text : Text} {a : Decimal} :
    Decimal.read? text = some a ↔
      ∃ n : Numeral, n.text = text ∧ IsWord n.exponentValue ∧ IsWord n.scale ∧
        a.scale = n.scale ∧ a.unscaled = n.unscaled := by
  constructor
  · intro h
    obtain ⟨n, rfl⟩ := Numeral.exists_of_read? h
    obtain ⟨hexponent, hunscaled, hscale⟩ := n.read?_text_eq_some_iff.1 h
    exact ⟨n, rfl, hexponent, hscale ▸ a.isWord_scale, hscale, hunscaled⟩
  · rintro ⟨n, rfl, hexponent, -, hscale, hunscaled⟩
    exact n.read?_text_eq_some_iff.2 ⟨hexponent, hunscaled, hscale⟩

/-- **The literals in range, exactly.** A text is read as a decimal when it is the text of a
numeral whose exponent and whose scale are both words; the digits and the sign of the numeral
then write the unscaled value, and its digits behind the point less its exponent make the
scale. No other text is read. -/
theorem Decimal.read?_iff_exists_numeral (text : Text) :
    (∀ a : Decimal, Decimal.read? text = some a ↔
      ∃ n : Numeral, n.text = text ∧ IsWord n.exponentValue ∧ IsWord n.scale ∧
        a.scale = n.scale ∧ a.unscaled = n.unscaled) ∧
      (Decimal.read? text = none ↔
        ¬∃ n : Numeral, n.text = text ∧ IsWord n.exponentValue ∧ IsWord n.scale) := by
  refine ⟨fun a => Numeral.read?_eq_some_iff_exists, ?_⟩
  rw [Option.eq_none_iff_forall_ne_some]
  constructor
  · rintro hnone ⟨n, htext, hexponent, hscale⟩
    -- the parts of the numeral are those of a decimal, since its scale is a word
    refine hnone ⟨n.unscaled, n.scale, hscale⟩ (Numeral.read?_eq_some_iff_exists.2 ?_)
    exact ⟨n, htext, hexponent, hscale, rfl, rfl⟩
  · intro hnone a h
    obtain ⟨n, htext, hexponent, hscale, -⟩ := Numeral.read?_eq_some_iff_exists.1 h
    exact hnone ⟨n, htext, hexponent, hscale⟩

/-- Zeros in front of an exponent do not count, and the point may stand behind all digits. -/
example : Decimal.read? ['-', '4', '2', '.', 'e', '+', '0', '0', '3'] =
    some ⟨-42, -3, by decide⟩ := by
  decide +kernel

/-! ### The characters of a numeral -/

/-- A sign is one of its two characters. -/
theorem WrittenSign.text_eq_append_cons {sign : WrittenSign} {c : Char} {left right : Text}
    (h : sign.text = left ++ c :: right) : left = [] ∧ (c = '+' ∨ c = '-') := by
  cases sign with
  | absent => simp [WrittenSign.text] at h
  | plus =>
    rw [WrittenSign.text, List.singleton_eq_append_iff] at h
    simp_all
  | minus =>
    rw [WrittenSign.text, List.singleton_eq_append_iff] at h
    simp_all

/-- In an exponent, a character other than its letter and its digits is its sign, and only the
letter stands in front of it. -/
theorem WrittenExponent.text_eq_append_cons {e : WrittenExponent} {c : Char} {left right : Text}
    (h : e.text = left ++ c :: right) (hdigit : c.isDigit = false)
    (hletter : c ≠ 'e' ∧ c ≠ 'E') : left = [e.letter] ∧ (c = '+' ∨ c = '-') := by
  cases left with
  | nil =>
    obtain ⟨rfl, -⟩ := List.cons.inj h
    exact absurd e.letter_eq (not_or.2 hletter)
  | cons d left =>
    obtain ⟨rfl, htail⟩ := List.cons.inj h
    rcases Text.exists_of_append_eq_append_cons htail with ⟨rest, hsign⟩ | ⟨more, -, hdigits⟩
    · obtain ⟨rfl, hc⟩ := WrittenSign.text_eq_append_cons hsign
      exact ⟨rfl, hc⟩
    · have hmem := e.isDigit_of_mem c (hdigits ▸ by simp)
      simp [hdigit] at hmem

namespace Numeral

/-- In a numeral, a character that belongs neither to a mantissa nor in front of an exponent
is a sign. If anything stands before it, then the letter of the exponent does. -/
theorem text_eq_append_cons {n : Numeral} {c : Char} {left right : Text}
    (h : n.text = left ++ c :: right) (hmantissa : Literal.isMantissa c = false)
    (hletter : c ≠ 'e' ∧ c ≠ 'E') :
    (c = '+' ∨ c = '-') ∧ ∀ d ∈ left.getLast?, d = 'e' ∨ d = 'E' := by
  have hdigit : c.isDigit = false := by
    rw [Literal.isMantissa, Bool.or_eq_false_iff] at hmantissa
    exact hmantissa.1
  -- the character stands in the sign, in the mantissa or in the exponent
  rcases Text.exists_of_append_eq_append_cons h with ⟨rest, hsign⟩ | ⟨more, rfl, hbody⟩
  · obtain ⟨rfl, hc⟩ := WrittenSign.text_eq_append_cons hsign
    exact ⟨hc, by simp⟩
  rcases Text.exists_of_append_eq_append_cons hbody with ⟨rest, hpoint⟩ | ⟨others, rfl, hexponent⟩
  · have hmem := n.isMantissa_of_mem (c := c) (hpoint ▸ by simp)
    simp [hmantissa] at hmem
  · rw [exponentText] at hexponent
    cases hn : n.exponent with
    | none => simp [hn] at hexponent
    | some e =>
      rw [hn, Option.elim_some] at hexponent
      obtain ⟨rfl, hc⟩ := WrittenExponent.text_eq_append_cons hexponent hdigit hletter
      refine ⟨hc, fun d hd => ?_⟩
      obtain rfl : e.letter = d := by simpa [← List.append_assoc] using hd
      exact e.letter_eq

/-- The first character of a numeral is a sign, a digit or its point. -/
theorem head?_text (n : Numeral) :
    ∃ c, n.text.head? = some c ∧ (c.isDigit ∨ c = '.' ∨ c = '+' ∨ c = '-') := by
  rw [text]
  cases n.sign with
  | absent =>
    obtain ⟨c, hhead, hmantissa⟩ := n.exists_head?_eq
    refine ⟨c, hhead, ?_⟩
    rw [Literal.isMantissa, Bool.or_eq_true, beq_iff_eq] at hmantissa
    exact hmantissa.imp_right Or.inl
  | plus => exact ⟨'+', rfl, by simp⟩
  | minus => exact ⟨'-', rfl, by simp⟩

/-- A text ends as a last part of it does. -/
theorem getLast?_append_getLast {front last : Text} (h : last ≠ []) :
    (front ++ last).getLast? = some (last.getLast h) := by
  rw [List.getLast?_append, List.getLast?_eq_some_getLast h, Option.some_or]

/-- The last character of a numeral is a digit or its point. -/
theorem getLast?_text (n : Numeral) :
    ∃ c, n.text.getLast? = some c ∧ (c.isDigit ∨ c = '.') := by
  rw [text, exponentText, pointText]
  -- the last part that is written decides: the exponent, the fraction or the whole digits
  cases n.exponent with
  | some e =>
    refine ⟨e.digits.getLast e.digits_ne_nil, ?_, Or.inl (e.isDigit_of_mem _ (List.getLast_mem _))⟩
    rw [Option.elim_some, WrittenExponent.text, ← List.cons_append, ← List.append_assoc,
      ← List.append_assoc, getLast?_append_getLast e.digits_ne_nil]
  | none =>
    rw [Option.elim_none, List.append_nil]
    have hne := n.digits_ne_nil
    have hdigit := n.isDigit_of_mem_fraction
    cases hfraction : n.fraction with
    | none =>
      rw [hfraction, Option.getD_none, List.append_nil] at hne
      refine ⟨n.whole.getLast hne, ?_, Or.inl (n.isDigit_of_mem_whole _ (List.getLast_mem _))⟩
      rw [Option.elim_none, List.append_nil, getLast?_append_getLast hne]
    | some fraction =>
      rw [hfraction, Option.getD_some] at hdigit
      refine ⟨('.' :: fraction).getLast (by simp), ?_, ?_⟩
      · rw [Option.elim_some, ← List.append_assoc, getLast?_append_getLast (by simp)]
      · rcases List.mem_cons.1 (List.getLast_mem (l := '.' :: fraction) (by simp)) with h | h
        · exact Or.inr h
        · exact Or.inl (hdigit _ h)

end Numeral

end SplitCalc
