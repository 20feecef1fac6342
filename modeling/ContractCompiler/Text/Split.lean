/-!
# Parts of a text

A text as the list of its parts between the places where a character stands: one more than
there are such places. The lines of a text are its parts between line feeds.
-/

namespace ContractCompiler.Text

/-- Puts one more character in front of the first part. -/
def consPart (sep c : Char) : List (List Char) → List (List Char)
  | [] => [[c]]
  | part :: rest => if c = sep then [] :: part :: rest else (c :: part) :: rest

/-- The parts of a text between the places where `sep` stands. -/
def split (sep : Char) (cs : List Char) : List (List Char) :=
  cs.foldr (consPart sep) [[]]

/-- The text made of some parts, with `sep` between any two. -/
def join (sep : Char) (parts : List (List Char)) : List Char :=
  [sep].intercalate parts

@[simp] theorem split_nil (sep : Char) : split sep [] = [[]] := rfl

theorem split_cons (sep c : Char) (cs : List Char) :
    split sep (c :: cs) = consPart sep c (split sep cs) := rfl

theorem split_ne_nil (sep : Char) (cs : List Char) : split sep cs ≠ [] := by
  cases cs with
  | nil => simp
  | cons c cs =>
    rw [split_cons]
    cases split sep cs with
    | nil => simp [consPart]
    | cons part rest => by_cases h : c = sep <;> simp [consPart, h]

/-- Putting the parts of a text together again gives the text. -/
theorem join_split (sep : Char) (cs : List Char) : join sep (split sep cs) = cs := by
  induction cs with
  | nil => rfl
  | cons c cs ih =>
    rw [split_cons]
    cases hp : split sep cs with
    | nil => exact absurd hp (split_ne_nil sep cs)
    | cons part rest =>
      rw [hp] at ih
      by_cases h : c = sep
      · subst h
        simpa [consPart, join, List.intercalate, List.intersperse] using ih
      · cases rest <;>
          simp_all [consPart, join, List.intercalate, List.intersperse]

end ContractCompiler.Text
