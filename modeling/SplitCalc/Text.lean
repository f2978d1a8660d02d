/-!
# Taking texts apart

A text is the list of its characters. There are three ways to take one apart at a mark: at
the first occurrence of a character, behind a mark at its head, and before a mark at its end.
Each is pinned down by one equivalence, which puts the parts and the mark back together.
-/

namespace SplitCalc

/-- A text, as the list of its characters. -/
abbrev Text := List Char

namespace Text

/-! ### At a character -/

/-- The parts of a text before and behind the first occurrence of a character. -/
def cutAt? (c : Char) (text : Text) : Option (Text × Text) :=
  match text.dropWhile (· != c) with
  | [] => none
  | _ :: right => some (text.takeWhile (· != c), right)

/-- A text is cut exactly where the character occurs for the first time. -/
theorem cutAt?_eq_some_iff {c : Char} {text left right : Text} :
    cutAt? c text = some (left, right) ↔ text = left ++ c :: right ∧ c ∉ left := by
  constructor
  · intro h
    simp only [cutAt?] at h
    split at h
    · simp at h
    · rename_i head rest hdrop
      simp only [Option.some.injEq, Prod.mk.injEq] at h
      obtain ⟨rfl, rfl⟩ := h
      have hhead : head = c := by
        have := List.head_dropWhile_not (· != c) (l := text) (by simp [hdrop])
        simpa [hdrop] using this
      constructor
      · rw [← hhead, ← hdrop, hhead, List.takeWhile_append_dropWhile]
      · intro hmem
        simpa using List.all_eq_true.1 List.all_takeWhile c hmem
  · rintro ⟨rfl, hnot⟩
    have hall : ∀ x ∈ left, (x != c) = true := by
      intro x hx
      simp only [bne_iff_ne, ne_eq]
      rintro rfl
      exact hnot hx
    rw [cutAt?, List.dropWhile_append_of_pos hall, List.takeWhile_append_of_pos hall]
    simp

/-- A text is not cut exactly when the character does not occur. -/
theorem cutAt?_eq_none_iff {c : Char} {text : Text} : cutAt? c text = none ↔ c ∉ text := by
  constructor
  · intro h hmem
    obtain ⟨left, right, rfl, hnot⟩ := List.eq_append_cons_of_mem hmem
    rw [cutAt?_eq_some_iff.2 ⟨rfl, hnot⟩] at h
    simp at h
  · intro hnot
    cases h : cutAt? c text with
    | none => rfl
    | some parts =>
      rw [cutAt?_eq_some_iff] at h
      exact absurd (by simp [h.1]) hnot

/-- A character of a text in two parts stands in the first part or in the second. -/
theorem exists_of_append_eq_append_cons {c : Char} {first second left right : Text}
    (h : first ++ second = left ++ c :: right) :
    (∃ rest, first = left ++ c :: rest) ∨
      ∃ more, left = first ++ more ∧ second = more ++ c :: right := by
  rcases List.append_eq_append_iff.1 h with ⟨more, hleft, hsecond⟩ | ⟨more, hfirst, hright⟩
  · exact Or.inr ⟨more, hleft, hsecond⟩
  · cases more with
    | nil => exact Or.inr ⟨[], by simpa using hfirst.symm, hright.symm⟩
    | cons d more =>
      obtain ⟨rfl, -⟩ := List.cons.inj hright
      exact Or.inl ⟨more, hfirst⟩

/-! ### At the head -/

/-- What stands behind a mark at the head of a text. -/
def afterHead? : Text → Text → Option Text
  | [], text => some text
  | _ :: _, [] => none
  | c :: mark, d :: text => if c = d then afterHead? mark text else none

/-- A text begins with a mark exactly when it is the mark and what stands behind it. -/
theorem afterHead?_eq_some_iff {mark text rest : Text} :
    afterHead? mark text = some rest ↔ text = mark ++ rest := by
  induction mark generalizing text with
  | nil => simp [afterHead?]
  | cons c mark ih =>
    cases text with
    | nil => simp [afterHead?]
    | cons d text =>
      rw [afterHead?]
      split
      · rename_i h
        simp [ih, h]
      · rename_i h
        simp [Ne.symm h]

/-- Nothing is found behind a mark exactly when the text does not begin with it. -/
theorem afterHead?_eq_none_iff {mark text : Text} :
    afterHead? mark text = none ↔ ¬mark <+: text := by
  constructor
  · rintro h ⟨rest, hrest⟩
    rw [afterHead?_eq_some_iff.2 hrest.symm] at h
    simp at h
  · intro h
    rw [Option.eq_none_iff_forall_ne_some]
    intro rest hrest
    exact h ⟨rest, (afterHead?_eq_some_iff.1 hrest).symm⟩

/-! ### At the end -/

/-- What stands before a mark at the end of a text. -/
def beforeEnd? (mark text : Text) : Option Text :=
  (afterHead? mark.reverse text.reverse).map List.reverse

/-- A text ends with a mark exactly when it is what stands before it and the mark. -/
theorem beforeEnd?_eq_some_iff {mark text rest : Text} :
    beforeEnd? mark text = some rest ↔ text = rest ++ mark := by
  simp only [beforeEnd?, Option.map_eq_some_iff, afterHead?_eq_some_iff]
  constructor
  · rintro ⟨reversed, h, rfl⟩
    simpa using congrArg List.reverse h
  · rintro rfl
    exact ⟨rest.reverse, by simp⟩

/-- Nothing is found before a mark exactly when the text does not end with it. -/
theorem beforeEnd?_eq_none_iff {mark text : Text} :
    beforeEnd? mark text = none ↔ ¬mark <:+ text := by
  rw [beforeEnd?, Option.map_eq_none_iff, afterHead?_eq_none_iff, List.reverse_prefix]

end Text

end SplitCalc
