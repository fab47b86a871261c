import ScriptInventory.Proofs.Pattern.Keyword
import ScriptInventory.Proofs.Plain.Nodes
import ScriptInventory.Proofs.Plain.Tokens

/-!
# Keywords in plain scripts

The tree of a plain script accounts for every place at which the pattern of a keyword matches
(`accounted_of_read?`): the token there is a name or a value and has a leaf, or it is the
keyword, and the name behind it is the next token.
-/

namespace ScriptInventory.Script.Plain

open Grammar

variable {text : List Char} {k : Keyword} {i : Nat} {behind blanks name rest : List Char}

/-- The source of a name or a value is its text. -/
theorem source_of_text? {form : Form} {s : String} (h : form.text? = some s) :
    form.source = s.toList := by
  cases form <;> cases h <;> rfl

/-- An opener that ends with a keyword is the opener of that keyword. -/
theorem eq_opener_of_isPrefix {o : Opener} {j : Nat}
    (h : k.text.toList <+: (Form.opener o).source.drop j) : o = opener k ∧ j = 0 := by
  have hlt : j < 8 := by
    refine Nat.lt_of_not_le fun hle => ?_
    rw [List.drop_eq_nil_of_le (Nat.le_trans (by cases o <;> decide) hle)] at h
    cases k <;> cases List.prefix_nil.1 h
  have hall : ∀ k ∈ Keyword.all, ∀ o ∈ [Opener.class, .function, .let, .const, .var], ∀ j < 8,
      k.text.toList <+: (Form.opener o).source.drop j → o = opener k ∧ j = 0 := by decide
  exact hall k k.mem_all o (by cases o <;> decide) j hlt h

/-- A keyword that starts in an opener is the opener. -/
theorem opener_of_lies {t : Token} {front left : List Char} (hlies : t.Lies text front left)
    {o : Opener} (ho : t.form = .opener o) (hkeyword : text.drop i = k.text.toList ++ behind)
    (hle : front.length ≤ i) (hlt : i < front.length + t.form.source.length) :
    o = opener k ∧ front = text.take i ∧ left = behind := by
  obtain ⟨j, rfl⟩ := Nat.exists_eq_add_of_le hle
  rw [hlies.split, ← List.drop_drop, List.drop_left, List.drop_append_of_le_length (by omega)]
    at hkeyword
  obtain ⟨more, hsource, hleft⟩ : ∃ more, t.form.source.drop j = k.text.toList ++ more ∧
      behind = more ++ left := by
    rcases List.append_eq_append_iff.1 hkeyword with ⟨m, hm, rfl⟩ | ⟨m, hm, rfl⟩
    · -- what follows an opener is no part of a word
      cases m with
      | nil => exact ⟨[], by simpa using hm.symm, rfl⟩
      | cons c m =>
        have hc : c ∈ k.text.toList := hm ▸ List.mem_append_right _ List.mem_cons_self
        have hpart : ∀ c ∈ k.text.toList, isWordPart c := by cases k <;> decide
        have hstop := hlies.ends.stop (by rw [ho]; rfl) c rfl
        rw [hpart c hc] at hstop
        cases hstop
    · exact ⟨m, hm, rfl⟩
  rw [ho] at hsource
  obtain ⟨rfl, rfl⟩ := eq_opener_of_isPrefix ⟨more, hsource.symm⟩
  have hmore : more = [] := by
    have hlength := congrArg List.length hsource
    rw [List.drop_zero, List.length_append] at hlength
    refine List.length_eq_zero_iff.1 ?_
    cases k <;> simpa [Form.source, opener, Keyword.text, Canonical.Piece.word] using hlength
  refine ⟨rfl, ?_, ?_⟩
  · rw [hlies.split, Nat.add_zero, List.take_left]
  · rw [hleft, hmore, List.nil_append]

/-- What a keyword at the start of a node declares is named by the pattern. -/
theorem names_of_declares (hbehind : k.Behind behind blanks name rest) {before : List Char}
    {word : String} {q : Place} {m : Bool} {later : List Token}
    (hlaid : Laid before (⟨.name word, q, m⟩ :: later) behind) {p : Place} {n : Node}
    (hn : Declares k p word n) : ∀ d ∈ Declaration.declaredName n, k.Names name d := by
  obtain ⟨b, left, hsplit, hb, hends⟩ := hlaid.head
  obtain ⟨c, hc, hword⟩ := Option.map_eq_some_iff.1 hn.name
  rw [Declaration.declaredName, hc]
  dsimp only
  rw [hword]
  refine hbehind.names_of_word hsplit (fun c hc => ?_) ⟨hends.stop rfl, fun hmem => ?_⟩
  · rw [isBlank, hb c hc]
    rfl
  · exact absurd (hends.parts rfl _ hmem) (by decide)

/-- **Keywords in plain scripts.** The tree of a plain script accounts for every place at which
the pattern of a keyword matches. -/
theorem accounted_of_read? {text : String} {root : Node} (h : read? text = some root)
    (hkeyword : text.toList.drop i = k.text.toList ++ behind)
    (hbehind : k.Behind behind blanks name rest) : k.Accounted text.toList root i name := by
  obtain ⟨ts, hts, hshown⟩ := shown_of_read? h
  -- the first character of the keyword is in a token, and the token's form tells what is found
  obtain ⟨ch, hch, hblank, hsign⟩ : ∃ ch, k.text.toList[0]? = some ch ∧ isPlainBlank ch = false ∧
      isSign ch = false ∧ ch ≠ '.' := by
    cases k
    · exact ⟨'c', rfl, by decide⟩
    · exact ⟨'f', rfl, by decide⟩
  have hchar : text.toList[i]? = some ch := by
    rw [← Nat.add_zero i, ← List.getElem?_drop, hkeyword,
      List.getElem?_append_left (by cases k <;> decide), hch]
  obtain ⟨earlier, t, later, front, left, hts', hlies, hle, hlt, hlaid⟩ :=
    (laid_of_tokens? hts).exists_token hchar hblank
  rw [List.nil_append, List.nil_append] at hlies
  have hmem : ch ∈ t.form.source := by
    rw [hlies.split, List.getElem?_append_right hle,
      List.getElem?_append_left (by omega)] at hchar
    exact List.mem_of_getElem? hchar
  cases hform : t.form with
  -- the keyword itself: its declaration is named by the word behind it
  | opener o =>
    right
    obtain ⟨rfl, hfront, rfl⟩ := opener_of_lies hlies hform hkeyword hle hlt
    obtain ⟨word, q, m, rear, rfl, n, hn, hdeclares⟩ := hshown.exists_declares (by
      rw [hts', ← hform])
    rw [← Node.map_snd_placed none] at hn
    obtain ⟨a, ha, rfl⟩ := List.mem_map.1 hn
    refine ⟨a, ha, ⟨hdeclares.kind, .inl ?_⟩, names_of_declares hbehind hlaid hdeclares⟩
    rw [hdeclares.start, hlies.place, hfront]
  -- a letter is neither a sign nor a dot
  | sign c =>
    rw [hform] at hmem
    rw [List.mem_singleton.1 hmem, hlies.ends.sign c hform] at hsign
    cases hsign.1
  | dots =>
    rw [hform] at hmem
    exact absurd (by simpa [Form.source] using hmem) hsign.2
  -- the match lies inside the text of a leaf
  | name s | number s | quoted s =>
    left
    have htext : t.form.text? = some s := by rw [hform]; rfl
    obtain ⟨n, hn, hleaf⟩ := hshown.exists_leaf (hts' ▸ by simp) htext
    have hsource := source_of_text? hleaf.text
    refine ⟨n, hn, ⟨hleaf.leaf, front, left, ?_, ?_, hle, hsource ▸ hlt⟩, fun hkind => ?_⟩
    · rw [← hsource]
      exact hlies.split
    · rw [hleaf.start]
      exact hlies.place
    · exact absurd (hkind ▸ hleaf.kind) (by cases k <;> decide)

end ScriptInventory.Script.Plain
