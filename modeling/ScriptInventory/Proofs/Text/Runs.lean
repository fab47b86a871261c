/-!
# Runs of characters

The longest run of characters of a class at the start of a text, where the text is given
as the run and what stands behind it.
-/

namespace ScriptInventory

/-! Statements about the characters of a text are decided by looking at the text, and not at
all characters there are. -/

instance (priority := high) decidableForallMemText {p : Char → Prop} [DecidablePred p]
    (text : List Char) : Decidable (∀ c ∈ text, p c) :=
  List.decidableBAll p text

instance (priority := high) decidableForallMemHead {p : Char → Prop} [DecidablePred p]
    (first : Option Char) : Decidable (∀ c ∈ first, p c) :=
  match first with
  | none => isTrue nofun
  | some c =>
    if h : p c then isTrue fun _ hd => Option.some.inj hd ▸ h
    else isFalse fun hall => h (hall c rfl)

theorem dropWhile_of_head? {q : Char → Bool} {text : List Char}
    (h : ∀ c ∈ text.head?, q c = false) : text.dropWhile q = text := by
  cases text with
  | nil => rfl
  | cons c rest =>
    have hc : q c = false := h c rfl
    exact List.dropWhile_cons_of_neg (by simp [hc])

theorem takeWhile_of_head? {q : Char → Bool} {text : List Char}
    (h : ∀ c ∈ text.head?, q c = false) : text.takeWhile q = [] := by
  cases text with
  | nil => rfl
  | cons c rest =>
    have hc : q c = false := h c rfl
    exact List.takeWhile_cons_of_neg (by simp [hc])

theorem takeWhile_run {q : Char → Bool} {w rest : List Char} (hw : ∀ c ∈ w, q c)
    (hend : ∀ c ∈ rest.head?, q c = false) : (w ++ rest).takeWhile q = w := by
  rw [List.takeWhile_append_of_pos hw, takeWhile_of_head? hend, List.append_nil]

theorem dropWhile_run {q : Char → Bool} {w rest : List Char} (hw : ∀ c ∈ w, q c)
    (hend : ∀ c ∈ rest.head?, q c = false) : (w ++ rest).dropWhile q = rest := by
  rw [List.dropWhile_append_of_pos hw, dropWhile_of_head? hend]

end ScriptInventory
