import ScriptInventory.Script.Tolerant.Lexer

/-!
# Positions of a text and what stands there

The positions of a text are those of its list of characters (`Text.rest_ofString`,
`Text.place_ofString`). `Text.Shows` says that a terminal stands at a position: blanks, then
a lexeme that reads as the terminal (`Terminal.Reads`).
-/

namespace ScriptInventory.Script.Tolerant

open Grammar

/-! ## Positions -/

namespace Text

/-- The positions from some character on. -/
theorem toList_go (cs : List Char) (rests : Array (List Char)) (places : Array Place)
    (bytes : Array Nat) (place : Place) (byte : Nat) :
    (ofString.go rests places bytes place byte cs).rests.toList =
        rests.toList ++ (List.range (cs.length + 1)).map (cs.drop ·) ∧
      (ofString.go rests places bytes place byte cs).places.toList =
        places.toList ++ (List.range (cs.length + 1)).map (fun n => place.after (cs.take n)) := by
  induction cs generalizing rests places bytes place byte with
  | nil => simp [ofString.go]
  | cons c cs ih =>
    obtain ⟨hrests, hplaces⟩ := ih (rests.push (c :: cs)) (places.push place) (bytes.push byte)
      (place.next c) (byte + c.utf8Size)
    rw [ofString.go, hrests, hplaces, List.length_cons,
      List.range_succ_eq_map (n := cs.length + 1)]
    simp only [Array.toList_push, List.append_assoc, List.singleton_append, List.map_cons,
      List.map_map, List.drop_zero, List.take_zero, Place.after_nil]
    exact ⟨rfl, rfl⟩

theorem rests_ofString (text : String) :
    (ofString text).rests.toList =
      (List.range (text.toList.length + 1)).map (text.toList.drop ·) := by
  rw [ofString, (toList_go text.toList #[] #[] #[] .start 0).1]
  rfl

theorem size_ofString (text : String) : (ofString text).size = text.toList.length := by
  rw [size, ← Array.length_toList, rests_ofString, List.length_map, List.length_range,
    Nat.add_sub_cancel]

/-- What stands at a position and behind it. -/
theorem rest_ofString (text : String) (i : Nat) : (ofString text).rest i = text.toList.drop i := by
  rw [rest, Array.getD_eq_getD_getElem?, ← Array.getElem?_toList, rests_ofString,
    List.getElem?_map]
  by_cases h : i < text.toList.length + 1
  · rw [List.getElem?_range h]
    rfl
  · rw [List.getElem?_eq_none (by rw [List.length_range]; omega), List.drop_eq_nil_of_le (by omega)]
    rfl

/-- The place of a position. -/
theorem place_ofString (text : String) {i : Nat} (h : i ≤ text.toList.length) :
    (ofString text).place i = Place.start.after (text.toList.take i) := by
  rw [place, Array.getD_eq_getD_getElem?, ← Array.getElem?_toList, ofString,
    (toList_go text.toList #[] #[] #[] .start 0).2]
  change ((List.map _ (List.range (text.toList.length + 1)))[i]?).getD Place.start = _
  rw [List.getElem?_map, List.getElem?_range (by omega)]
  rfl

/-- What stands between two positions. -/
theorem between_ofString (text : String) (i j : Nat) :
    (ofString text).between i j = (text.toList.drop i).take (j - i) := by
  rw [between, rest_ofString]

end Text

/-! ## What terminals read -/

/-- What can be told of the lexeme `w` of a terminal that `rest` follows. Of lexemes in
quotes and the like nothing is told. -/
def Reads (w rest : List Char) : Terminal → Prop
  | .endOfText => w = [] ∧ rest = []
  | .mark text | .named _ text => w = text.toList
  | .word => w ≠ [] ∧ Lexeme.wordTail (w ++ rest) = (w, rest)
  | .comment => w.head? = some '/'
  | .markupComment => w.head?.any fun c => c = '<' || c = '-'
  | .lineEnd => w = []
  | .questionMark => w = ['?']
  | .regexClose => w = ['/']
  | _ => True

/-- A terminal stands in a text from `start` to `stop`, with blanks in front of it from
`reach` on. -/
structure Text.Shows (t : Text) (terminal : Terminal) (reach start stop : Nat) : Prop where
  reach_le : reach ≤ start
  start_le : start ≤ stop
  blank : ∀ c ∈ t.between reach start, isBlank c
  reads : Reads (t.between start stop) (t.rest stop) terminal

/-- What stands from `reach` on: the blanks, the lexeme, and what follows. -/
theorem Text.Shows.split {text : String} {terminal : Terminal} {reach start stop : Nat}
    (h : (ofString text).Shows terminal reach start stop) :
    text.toList.drop reach = (ofString text).between reach start ++
      ((ofString text).between start stop ++ (ofString text).rest stop) := by
  rw [between_ofString, between_ofString, rest_ofString]
  have hstart : text.toList.drop start = (text.toList.drop reach).drop (start - reach) := by
    rw [List.drop_drop, Nat.add_sub_cancel' h.reach_le]
  have hstop : text.toList.drop stop = (text.toList.drop start).drop (stop - start) := by
    rw [List.drop_drop, Nat.add_sub_cancel' h.start_le]
  rw [hstop, List.take_append_drop, hstart, List.take_append_drop]

end ScriptInventory.Script.Tolerant
