import Concolic.Text.Words

/-!
# Words as longest runs

What the words of a text are is told without the function that finds them: gaps of blank characters
divide the text, and each word ends where a blank or the text does.  Every text divides in exactly
one way.
-/

namespace Concolic.Text

def AllBlank (chars : List Char) : Prop :=
  ∀ c ∈ chars, isBlank c = true

/-- A run of characters that are not blank, at least one. -/
structure IsWord (word : List Char) : Prop where
  nonempty : word ≠ []
  solid : ∀ c ∈ word, isBlank c = false

/-- The text divides into the words: each reaches from a gap, which may be empty only in front of
the text, to a blank or the end. -/
inductive Divides : List Char → List (List Char) → Prop where
  | blank {gap : List Char} (blank : AllBlank gap) : Divides gap []
  | word {gap word rest : List Char} {words : List (List Char)} (blank : AllBlank gap)
      (here : IsWord word) (ends : ∀ c ∈ rest.head?, isBlank c = true)
      (later : Divides rest words) : Divides (gap ++ word ++ rest) (word :: words)

variable {gap word rest text : List Char} {tokens : List (List Char)}

theorem allBlank_nil : AllBlank [] := fun c member ↦ by cases member

theorem words_cons_blank {c : Char} (blank : isBlank c = true) (text : List Char) :
    words (c :: text) = words text :=
  (words.eq_def (c :: text)).trans (if_pos blank)

theorem words_cons_solid {c next : Char} (solid : isBlank c = false)
    (solidNext : isBlank next = false) (text : List Char) :
    words (c :: next :: text) = extendFirst c (words (next :: text)) := by
  rw [words.eq_def (c :: next :: text)]
  simp [solid, solidNext]

theorem words_append_of_blank (blank : AllBlank gap) (rest : List Char) :
    words (gap ++ rest) = words rest := by
  induction gap with
  | nil => rfl
  | cons c gap ih =>
    obtain ⟨here, later⟩ := List.forall_mem_cons.mp blank
    rw [List.cons_append, words_cons_blank here, ih later]

theorem words_eq_nil (blank : AllBlank gap) : words gap = [] := by
  have all := words_append_of_blank blank []
  rwa [List.append_nil] at all

theorem words_append_of_isWord (here : IsWord word) (ends : ∀ c ∈ rest.head?, isBlank c = true) :
    words (word ++ rest) = word :: words rest := by
  obtain ⟨nonempty, solid⟩ := here
  induction word with
  | nil => contradiction
  | cons c word ih =>
    obtain ⟨first, others⟩ := List.forall_mem_cons.mp solid
    cases word with
    | nil =>
      cases rest with
      | nil => simp [words, first]
      | cons next rest =>
        rw [List.singleton_append, words.eq_def]
        simp [first, ends next rfl]
    | cons next word =>
      have inner := ih (List.cons_ne_nil _ _) others
      have solidNext : isBlank next = false := others next List.mem_cons_self
      simp only [List.cons_append] at inner ⊢
      rw [words_cons_solid first solidNext, inner, extendFirst]

theorem Divides.words_eq (divides : Divides text tokens) : words text = tokens := by
  induction divides with
  | blank blank => exact words_eq_nil blank
  | word blank here ends _ ih =>
    rw [List.append_assoc, words_append_of_blank blank, words_append_of_isWord here ends, ih]

theorem Divides.cons_blank {c : Char} (blank : isBlank c = true) (divides : Divides text tokens) :
    Divides (c :: text) tokens := by
  cases divides with
  | blank rest => exact .blank (List.forall_mem_cons.mpr ⟨blank, rest⟩)
  | word gap here ends later =>
    exact .word (List.forall_mem_cons.mpr ⟨blank, gap⟩) here ends later

/-- A word goes on in front as long as there is no blank. -/
theorem Divides.cons_solid {c next : Char} (solid : isBlank c = false)
    (solidNext : isBlank next = false) (divides : Divides (next :: text) tokens) :
    Divides (c :: next :: text) (extendFirst c tokens) := by
  generalize whole : next :: text = chars at divides
  cases divides with
  | blank blank =>
    have := blank next (whole ▸ List.mem_cons_self)
    rw [solidNext] at this
    contradiction
  | @word gap word rest others blank here ends later =>
    -- the text begins with the word itself, since its first character is not blank
    cases gap with
    | cons first gap =>
      obtain ⟨rfl, -⟩ := List.cons.inj whole
      have := blank next List.mem_cons_self
      rw [solidNext] at this
      contradiction
    | nil =>
      rw [extendFirst, List.nil_append]
      have longer : IsWord (c :: word) :=
        ⟨List.cons_ne_nil c word, List.forall_mem_cons.mpr ⟨solid, here.solid⟩⟩
      exact .word allBlank_nil longer ends later

theorem divides_words (text : List Char) : Divides text (words text) := by
  induction text with
  | nil => exact .blank allBlank_nil
  | cons c text ih =>
    unfold words
    split
    · next blank => exact ih.cons_blank blank
    · next solid =>
      rw [Bool.not_eq_true] at solid
      have alone : IsWord [c] := ⟨List.cons_ne_nil c [], by simpa using solid⟩
      split
      · exact .word allBlank_nil alone (by simp) (.blank allBlank_nil)
      · next next rest =>
        split
        · next blank => exact .word allBlank_nil alone (by simpa using blank) ih
        · next solidNext => exact ih.cons_solid solid (by simpa using solidNext)

/-- A text divides into its words and in no other way. -/
theorem divides_iff : Divides text tokens ↔ tokens = words text :=
  ⟨fun divides ↦ divides.words_eq.symm, fun same ↦ same ▸ divides_words text⟩

theorem Divides.isWord (divides : Divides text tokens) : ∀ token ∈ tokens, IsWord token := by
  induction divides with
  | blank => exact fun token member ↦ by cases member
  | word _ here _ _ ih => exact List.forall_mem_cons.mpr ⟨here, ih⟩

end Concolic.Text
