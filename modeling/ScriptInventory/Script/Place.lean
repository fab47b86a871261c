/-!
# Places in a text

A place is a line and a column, both counted from one. Lines end at line feeds
only, and a column counts the bytes of the UTF-8 form, so a place can be handed
to an editor that works on bytes. `Place.after` is the only way to move: it is a
fold, so moving over `a ++ b` is moving over `a` and then over `b`
(`Place.after_append`).
-/

namespace ScriptInventory.Script

/-- A line and a byte column, both counted from one. -/
structure Place where
  line : Nat
  column : Nat
deriving DecidableEq, Repr, Inhabited

namespace Place

/-- The place of the first character of a text. -/
def start : Place := ⟨1, 1⟩

/-- The place behind one character: a line feed opens the next line, any other
character takes as many columns as it has bytes. -/
def next (p : Place) (c : Char) : Place :=
  if c = '\n' then ⟨p.line + 1, 1⟩ else ⟨p.line, p.column + c.utf8Size⟩

/-- The place behind a run of characters. -/
def after (p : Place) (text : List Char) : Place :=
  text.foldl next p

@[simp] theorem after_nil (p : Place) : p.after [] = p := rfl

theorem after_cons (p : Place) (c : Char) (text : List Char) :
    p.after (c :: text) = (p.next c).after text := rfl

theorem after_append (p : Place) (a b : List Char) :
    p.after (a ++ b) = (p.after a).after b := by
  simp [after, List.foldl_append]

end Place

end ScriptInventory.Script
