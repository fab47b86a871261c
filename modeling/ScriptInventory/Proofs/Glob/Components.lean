import Mathlib.Tactic.Common
import ScriptInventory.Glob.Parse

/-!
# Globs and the names of a path

A path is matched as bytes, but its slashes divide it into names. Main statement: of the
two globs for a name, one matches the paths that end with the name, and the other those
that have it further in front; together they match the paths that have it at all
(`matchPieces_name_or_below`).

* `slash_mem_utf8`: slashes as bytes are slashes as characters.
* `matchPieces_leading`: the piece in front leaves the names behind some of them.
* `matchPieces_bytes`: bytes take themselves off.
-/

namespace ScriptInventory.Glob

/-! ## Bytes -/

/-- The byte of a slash is part of no other character. -/
theorem slash_mem_utf8EncodeChar {c : Char} : slash ∈ String.utf8EncodeChar c ↔ c = '/' := by
  constructor
  · intro h
    have hval : c.val.toNat = 0x2F := by
      unfold String.utf8EncodeChar at h
      simp only [slash] at h
      split at h
      · rename_i hsmall
        have hbyte := congrArg UInt8.toNat (List.mem_singleton.1 h)
        simp only [UInt8.toNat_ofNat'] at hbyte
        have h47 : UInt8.toNat 0x2F = 47 := rfl
        omega
      · -- all bytes of a longer encoding are beyond ASCII
        exfalso
        have h47 : UInt8.toNat 0x2F = 47 := rfl
        have hbyte : ∀ n : Nat, (0x2F : UInt8) = UInt8.ofNat n → n % 256 = 47 := by
          intro n hn
          have := congrArg UInt8.toNat hn
          simp only [UInt8.toNat_ofNat'] at this
          omega
        split at h
        · simp only [List.mem_cons, List.not_mem_nil, or_false] at h
          rcases h with h | h <;> have := hbyte _ h <;> omega
        · split at h
          · simp only [List.mem_cons, List.not_mem_nil, or_false] at h
            rcases h with h | h | h <;> have := hbyte _ h <;> omega
          · simp only [List.mem_cons, List.not_mem_nil, or_false] at h
            rcases h with h | h | h | h <;> have := hbyte _ h <;> omega
    apply Char.ext
    apply UInt32.toNat_inj.1
    exact hval
  · rintro rfl
    decide

theorem slash_mem_utf8 {text : List Char} : slash ∈ utf8 text ↔ '/' ∈ text := by
  rw [utf8, List.mem_flatMap]
  simp only [slash_mem_utf8EncodeChar, exists_eq_right]

@[simp] theorem utf8_append (a b : List Char) : utf8 (a ++ b) = utf8 a ++ utf8 b :=
  List.flatMap_append

theorem utf8_injective {a b : List Char} (h : utf8 a = utf8 b) : a = b := by
  have htext : String.ofList a = String.ofList b := by
    apply String.toByteArray_inj.1
    rw [String.toByteArray_ofList, String.toByteArray_ofList, List.utf8Encode, List.utf8Encode]
    exact congrArg List.toByteArray h
  exact String.ofList_injective htext

/-- The names of a path, as bytes between slashes. -/
theorem utf8_intercalate (path : List String) :
    utf8 ("/".intercalate path).toList =
      [slash].intercalate (path.map fun name => utf8 name.toList) := by
  rw [String.toList_intercalate]
  induction path with
  | nil => rfl
  | cons name rest ih =>
    cases rest with
    | nil => simp
    | cons next rest =>
      simp only [List.map_cons, List.intercalate_cons_cons, utf8_append] at ih ⊢
      rw [ih]
      rfl

/-! ## What pieces leave -/

theorem slashRests_of_not_mem {bytes : List UInt8} (h : slash ∉ bytes) :
    slashRests bytes = [] := by
  induction bytes with
  | nil => rfl
  | cons b rest ih =>
    rw [List.mem_cons, not_or] at h
    rw [slashRests, if_neg (Ne.symm h.1), ih h.2]

theorem slashRests_append {front : List UInt8} (h : slash ∉ front) (rest : List UInt8) :
    slashRests (front ++ slash :: rest) = rest :: slashRests rest := by
  induction front with
  | nil => rw [List.nil_append, slashRests, if_pos rfl]
  | cons b front ih =>
    rw [List.mem_cons, not_or] at h
    rw [List.cons_append, slashRests, if_neg (Ne.symm h.1), ih h.2]

/-- The piece in front of a path leaves the path, or its last names. -/
theorem matchPieces_leading (pieces : List Piece) {names : List (List UInt8)}
    (hne : names ≠ []) (hnames : ∀ name ∈ names, slash ∉ name) :
    matchPieces (.leading :: pieces) ([slash].intercalate names) = true ↔
      ∃ front back, names = front ++ back ∧ back ≠ [] ∧
        matchPieces pieces ([slash].intercalate back) = true := by
  induction names with
  | nil => exact absurd rfl hne
  | cons name rest ih =>
    have hname : slash ∉ name := hnames name List.mem_cons_self
    have hrest : ∀ other ∈ rest, slash ∉ other := fun other hother =>
      hnames other (List.mem_cons_of_mem _ hother)
    rw [matchPieces, Piece.rests, List.any_cons, Bool.or_eq_true]
    cases rest with
    -- one name holds no slash, and the piece can only take nothing off
    | nil =>
      rw [List.intercalate_singleton, slashRests_of_not_mem hname]
      constructor
      · rintro (h | h)
        · exact ⟨[], [name], rfl, by simp, by simpa using h⟩
        · cases h
      · rintro ⟨front, back, heq, hback, h⟩
        left
        cases front with
        | nil =>
          obtain rfl : [name] = back := heq
          simpa using h
        | cons first front =>
          injection heq with _ htail
          exact absurd (List.append_eq_nil_iff.1 htail.symm).2 hback
    | cons next rest =>
      have hjoin : [slash].intercalate (name :: next :: rest) =
          name ++ slash :: [slash].intercalate (next :: rest) := by
        simp
      -- of more names the piece takes the first one off, with its slash, and is asked again
      have hlater := ih (by simp) hrest
      rw [matchPieces, Piece.rests] at hlater
      rw [hjoin, slashRests_append hname, hlater]
      constructor
      · rintro (h | ⟨front, back, heq, hback, h⟩)
        · exact ⟨[], _, rfl, by simp, by rwa [hjoin]⟩
        · exact ⟨name :: front, back, by rw [heq, List.cons_append], hback, h⟩
      · rintro ⟨front, back, heq, hback, h⟩
        cases front with
        | nil =>
          left
          rw [← hjoin, heq]
          exact h
        | cons first front =>
          right
          injection heq with _ htail
          exact ⟨front, back, htail, hback, h⟩

/-- Bytes take themselves off a path. -/
theorem matchPieces_bytes (literal : List UInt8) (pieces : List Piece) (bytes : List UInt8) :
    matchPieces (literal.map .byte ++ pieces) bytes = true ↔
      ∃ rest, bytes = literal ++ rest ∧ matchPieces pieces rest = true := by
  induction literal generalizing bytes with
  | nil => simp
  | cons a literal ih =>
    rw [List.map_cons, List.cons_append, matchPieces]
    cases bytes with
    | nil => simp [Piece.rests]
    | cons b bytes =>
      rw [Piece.rests]
      by_cases hab : a = b
      · subst hab
        simp [ih]
      · rw [if_neg hab]
        constructor
        · intro h
          cases h
        · rintro ⟨rest, heq, -⟩
          injection heq with hb _
          exact absurd hb.symm hab

/-- A run takes what has no slash. -/
theorem matchPieces_run {bytes : List UInt8} (h : slash ∉ bytes) :
    matchPieces [.run] bytes = true := by
  rw [matchPieces, Piece.rests]
  induction bytes with
  | nil => rfl
  | cons b rest ih =>
    rw [List.mem_cons, not_or] at h
    rw [runRests, if_neg (Ne.symm h.1), List.any_cons, ih h.2, Bool.or_true]

/-! ## Names -/

variable {names : List (List UInt8)} {name : List UInt8}

/-- The pieces of the glob for a name. -/
def namePieces (name : List UInt8) : List Piece := .leading :: name.map .byte

/-- The pieces of the glob for what is below a name. -/
def belowPieces (name : List UInt8) : List Piece :=
  .leading :: (name.map .byte ++ [.between, .run])

/-- Names between slashes are found again. -/
theorem intercalate_eq_singleton {back : List (List UInt8)} (hback : back ≠ [])
    (hslash : ∀ n ∈ back, slash ∉ n) (hname : slash ∉ name)
    (h : [slash].intercalate back = name) : back = [name] := by
  rw [← List.splitOn_intercalate slash hslash hback, h, List.splitOn_eq_singleton hname]

theorem matchPieces_namePieces (hne : names ≠ []) (hnames : ∀ n ∈ names, slash ∉ n)
    (hname : slash ∉ name) :
    matchPieces (namePieces name) ([slash].intercalate names) = true ↔
      ∃ front, names = front ++ [name] := by
  rw [namePieces, ← List.append_nil (name.map Piece.byte),
    matchPieces_leading _ hne hnames]
  simp only [matchPieces_bytes]
  constructor
  · rintro ⟨front, back, rfl, hback, rest, hjoin, hrest⟩
    rw [matchPieces, List.isEmpty_iff] at hrest
    rw [hrest, List.append_nil] at hjoin
    have hslash : ∀ n ∈ back, slash ∉ n := fun n hn =>
      hnames n (List.mem_append_right _ hn)
    exact ⟨front, by rw [intercalate_eq_singleton hback hslash hname hjoin]⟩
  · rintro ⟨front, rfl⟩
    exact ⟨front, [name], rfl, by simp, [], by simp, rfl⟩

/-- Between a slash and the last name there may be anything. -/
theorem matchPieces_between_run (hne : names ≠ []) (hnames : ∀ n ∈ names, slash ∉ n) :
    matchPieces [.between, .run] (slash :: [slash].intercalate names) = true := by
  -- behind a slash, the piece leaves what the piece in front of a path leaves
  have hlast : matchPieces [.leading, .run] ([slash].intercalate names) = true := by
    rw [matchPieces_leading _ hne hnames]
    refine ⟨names.dropLast, [names.getLast hne], (List.dropLast_concat_getLast hne).symm,
      by simp, ?_⟩
    rw [List.intercalate_singleton]
    exact matchPieces_run (hnames _ (List.getLast_mem hne))
  rw [matchPieces, Piece.rests, if_pos rfl]
  exact hlast

theorem matchPieces_belowPieces (hne : names ≠ []) (hnames : ∀ n ∈ names, slash ∉ n)
    (hname : slash ∉ name) :
    matchPieces (belowPieces name) ([slash].intercalate names) = true ↔
      ∃ front next back, names = front ++ name :: next :: back := by
  rw [belowPieces, matchPieces_leading _ hne hnames]
  simp only [matchPieces_bytes]
  constructor
  · rintro ⟨front, back, rfl, hback, rest, hjoin, hrest⟩
    have hslash : ∀ n ∈ back, slash ∉ n := fun n hn =>
      hnames n (List.mem_append_right _ hn)
    -- the name ends at a slash, where the path is divided as well
    obtain ⟨rest, rfl⟩ : ∃ more, rest = slash :: more := by
      cases rest with
      | nil => simp [matchPieces, Piece.rests] at hrest
      | cons b more =>
        by_cases hb : b = slash
        · exact ⟨more, by rw [hb]⟩
        · simp [matchPieces, Piece.rests, hb] at hrest
    have hsplit : back = name :: rest.splitOn slash := by
      rw [← List.splitOn_intercalate slash hslash hback, hjoin,
        List.splitOn_append_cons_self_of_not_mem hname]
    obtain ⟨next, more, hmore⟩ :=
      List.exists_cons_of_ne_nil (List.splitOn_ne_nil slash rest)
    exact ⟨front, next, more, by rw [hsplit, hmore]⟩
  · rintro ⟨front, next, back, rfl⟩
    refine ⟨front, name :: next :: back, rfl, by simp,
      slash :: [slash].intercalate (next :: back), by simp, ?_⟩
    apply matchPieces_between_run (by simp)
    intro n hn
    exact hnames n (List.mem_append_right _ (List.mem_cons_of_mem _ hn))

/-- A name is in a list at its end or further in front. -/
theorem mem_iff_last_or_before {α : Type} {a : α} {l : List α} :
    a ∈ l ↔ (∃ front, l = front ++ [a]) ∨ ∃ front next back, l = front ++ a :: next :: back := by
  constructor
  · intro h
    obtain ⟨front, back, rfl⟩ := List.append_of_mem h
    cases back with
    | nil => exact .inl ⟨front, rfl⟩
    | cons next back => exact .inr ⟨front, next, back, rfl⟩
  · rintro (⟨front, rfl⟩ | ⟨front, next, back, rfl⟩)
    · simp
    · simp

/-- Together, the two globs for a name match the paths that have it. -/
theorem matchPieces_name_or_below (hne : names ≠ []) (hnames : ∀ n ∈ names, slash ∉ n)
    (hname : slash ∉ name) :
    (matchPieces (namePieces name) ([slash].intercalate names) = true ∨
        matchPieces (belowPieces name) ([slash].intercalate names) = true) ↔
      name ∈ names := by
  rw [matchPieces_namePieces hne hnames hname, matchPieces_belowPieces hne hnames hname,
    ← mem_iff_last_or_before]

end ScriptInventory.Glob
