import ScriptInventory.Json.Parse
import ScriptInventory.Proofs.Json.Scalars

/-!
# Written JSON is read back

Main statement: a value that is written as text is read from that text again
(`parse?_pretty`). What the writer puts together is read as the tokens of the value
(`Value.lexes`). The reader is followed on these tokens, `Value.Reads` being what a call for one
value does; lists and objects are read by induction on what stands behind their first
entry. Twice the number of tokens bounds the calls that are open at one time.
-/

namespace ScriptInventory.Json

open ScriptInventory.Number (decimalDigits)
open Declaration.StringKey (HexDigit numeral)

/-! ## Tokens -/

mutual

def Value.tokens : Value → List Token
  | .null => [.null]
  | .bool b => [.bool b]
  | .number n => [.number (.ok n)]
  | .string s => [.string (.ok s)]
  | .array [] => [.openBracket, .closeBracket]
  | .array (first :: rest) =>
    .openBracket :: (first.tokens ++ itemTokens rest ++ [.closeBracket])
  | .object [] => [.openBrace, .closeBrace]
  | .object ((key, value) :: rest) =>
    .openBrace :: .string (.ok key) :: .colon ::
      (value.tokens ++ memberTokens rest ++ [.closeBrace])

/-- The tokens of the items of a list behind the first one. -/
def itemTokens : List Value → List Token
  | [] => []
  | v :: rest => .comma :: (v.tokens ++ itemTokens rest)

/-- The tokens of the members of an object behind the first one. -/
def memberTokens : List (String × Value) → List Token
  | [] => []
  | (key, value) :: rest =>
    .comma :: .string (.ok key) :: .colon :: (value.tokens ++ memberTokens rest)

end

/-- A value that can be written and read back: its numbers are natural numbers of at most
64 bits, and it is nested no deeper than some number of levels. -/
inductive Value.Fits : Nat → Value → Prop
  | null {depth : Nat} : Fits depth .null
  | bool {depth : Nat} (b : Bool) : Fits depth (.bool b)
  | number {depth n : Nat} (h : n ≤ mostSignificand) : Fits depth (.number (.natural n))
  | string {depth : Nat} (s : String) : Fits depth (.string s)
  | array {depth : Nat} {items : List Value} (h : ∀ v ∈ items, Fits depth v) :
    Fits (depth + 1) (.array items)
  | object {depth : Nat} {members : List (String × Value)}
    (h : ∀ m ∈ members, Fits depth m.2) : Fits (depth + 1) (.object members)

/-! ## Tokens of the pieces -/

theorem lexesClosed_token {c : Char} {t : Token} (h : IsMark c t) :
    LexesClosed Lexeme.token [c] [t] :=
  lexesClosed_mark h fun _ ht _ => ht

/-- The colon behind a key has a blank behind it. -/
theorem lexesClosed_colon : LexesClosed Lexeme.token [':', ' '] [.colon] := by
  have hblank : LexesClosed Lexeme.token [' '] [] := lexesClosed_blanks (by decide)
  exact (lexesClosed_token .colon).append hblank

theorem lexesClosed_nullToken : LexesClosed Lexeme.token "null".toList [.null] :=
  lexesClosed_word (by decide) (by decide) (fun _ _ => rfl) fun _ ht _ => ht

theorem lexesClosed_boolToken (b : Bool) :
    LexesClosed Lexeme.token ((Value.bool b).write 0) [.bool b] := by
  cases b with
  | true => exact lexesClosed_word (by decide) (by decide) (fun _ _ => rfl) fun _ ht _ => ht
  | false => exact lexesClosed_word (by decide) (by decide) (fun _ _ => rfl) fun _ ht _ => ht

theorem hexDigit_eq : ∀ n : Fin 16, hexDigit n = (HexDigit.mk n false).char := by decide

/-- An escaped character is a spelling of the character. -/
theorem spells_escapeChar (c : Char) : SpellsCharacter c (escapeChar c) := by
  unfold escapeChar
  split
  · exact .letter (by decide)
  · exact .letter (by decide)
  · exact .letter (by decide)
  · exact .letter (by decide)
  · exact .letter (by decide)
  · exact .letter (by decide)
  · exact .letter (by decide)
  · next hquote hslash _ _ _ _ _ =>
    split
    · next hcontrol =>
      -- two hexadecimal digits, and two zeros in front of them
      have hhigh : c.toNat / 16 < 16 := by omega
      have hlow : c.toNat % 16 < 16 := by omega
      have hnumeral : numeral [⟨0, false⟩, ⟨0, false⟩, ⟨⟨_, hhigh⟩, false⟩, ⟨⟨_, hlow⟩, false⟩] =
          c.toNat := by
        simp only [numeral, List.foldl_cons, List.foldl_nil, Fin.val_zero]
        omega
      have hcode := SpellsCharacter.code hnumeral
      simp only [codeText, List.map_cons, List.map_nil, ← hexDigit_eq] at hcode
      exact hcode
    · next hcontrol => exact .plain hquote hslash (Nat.not_lt.1 hcontrol)

theorem spells_escaped (cs : List Char) : SpellsCharacters cs (cs.flatMap escapeChar) := by
  induction cs with
  | nil => exact .nil
  | cons c cs ih => exact .cons (spells_escapeChar c) ih

theorem lexesClosed_quote (text : String) :
    LexesClosed Lexeme.token (quote text) [.string (.ok text)] :=
  lexesClosed_string (spells_escaped text.toList) fun _ ht _ => ht

theorem lexes_natural {n : Nat} (hn : n ≤ mostSignificand) :
    Lexes Lexeme.token (decimalDigits n) [.number (.ok (.natural n))] := by
  apply lexes_number (spells_decimalDigits n)
  intro s l ht _
  obtain ⟨v, hv, hnatural⟩ :=
    numberToken_eq ⟨false, decimalDigits n, none, none⟩ s (decimalDigits n).length
  rw [ht, hv, (hnatural n).2]
  have hvalue : Nat.ofDigitChars 10 (decimalDigits n) 0 = n := Nat.ofDigitChars_ten_toDigits
  simp only [Written.natural?, hvalue, le_mostSignificand_iff.1 hn, and_self, if_true]

/-! ## Tokens of values -/

/-- The items behind the first one. -/
theorem Lexes.append_items {level : Nat} {rest : List Value}
    (h : ∀ v ∈ rest, Lexes Lexeme.token (v.write level) v.tokens) {text : List Char}
    {ts : List Token}
    (ht : Lexes Lexeme.token text ts) : 
    Lexes Lexeme.token (text ++ writeItems level rest) (ts ++ itemTokens rest) := by
  induction rest generalizing text ts with
  | nil =>
    rw [writeItems, itemTokens, List.append_nil, List.append_nil]
    exact ht
  | cons v rest ih =>
    have hcomma := ht.append_closed (lexesClosed_token .comma) (List.cons_ne_nil _ _)
      (endsNumber_mark .comma [])
    have hv := (hcomma.append (lexesClosed_newLine level)).append_lexes
      (h v List.mem_cons_self)
    have hall := ih (fun w hw => h w (List.mem_cons_of_mem _ hw)) hv
    simpa only [writeItems, itemTokens, List.append_assoc, List.cons_append, List.nil_append,
      List.append_nil] using hall

/-- The members behind the first one. -/
theorem Lexes.append_members {level : Nat} {rest : List (String × Value)}
    (h : ∀ m ∈ rest, Lexes Lexeme.token (m.2.write level) m.2.tokens) {text : List Char}
    {ts : List Token}
    (ht : Lexes Lexeme.token text ts) :
    Lexes Lexeme.token (text ++ writeMembers level rest) (ts ++ memberTokens rest) := by
  induction rest generalizing text ts with
  | nil =>
    rw [writeMembers, memberTokens, List.append_nil, List.append_nil]
    exact ht
  | cons m rest ih =>
    have hcomma := ht.append_closed (lexesClosed_token .comma) (List.cons_ne_nil _ _)
      (endsNumber_mark .comma [])
    have hkey := ((hcomma.append (lexesClosed_newLine level)).append
      (lexesClosed_quote m.1)).append lexesClosed_colon
    have hall := ih (fun w hw => h w (List.mem_cons_of_mem _ hw))
      (hkey.append_lexes (h m List.mem_cons_self))
    simpa only [writeMembers, memberTokens, List.append_assoc, List.cons_append,
      List.nil_append, List.append_nil] using hall

/-- **A written value is read as its tokens.** -/
theorem Value.lexes {depth : Nat} {v : Value} (h : v.Fits depth) (level : Nat) :
    Lexes Lexeme.token (v.write level) v.tokens := by
  induction h generalizing level with
  | null => exact lexesClosed_nullToken.lexes
  | bool b =>
    cases b with
    | true => exact (lexesClosed_boolToken true).lexes
    | false => exact (lexesClosed_boolToken false).lexes
  | number hn => exact lexes_natural hn
  | string s => exact (lexesClosed_quote s).lexes
  | @array _ items hitems ih =>
    cases items with
    | nil =>
      exact ((lexesClosed_token .openBracket).append (lexesClosed_token .closeBracket)).lexes
    | cons first rest =>
      have hopen := (lexesClosed_token .openBracket).append (lexesClosed_newLine (level + 1))
      have hfirst := hopen.append_lexes (ih first List.mem_cons_self (level + 1))
      have hall := hfirst.append_items fun v hv => ih v (List.mem_cons_of_mem _ hv) (level + 1)
      -- the last item may be a number, and the new line behind it ends it
      have hclose := hall.append_closed
        ((lexesClosed_newLine level).append (lexesClosed_token .closeBracket))
        (by simp [newLine]) (endsNumber_newLine level _)
      rw [Value.write, Value.tokens]
      simpa only [List.append_assoc, List.cons_append, List.nil_append, List.append_nil]
        using hclose.lexes
  | @object _ members hmembers ih =>
    cases members with
    | nil =>
      exact ((lexesClosed_token .openBrace).append (lexesClosed_token .closeBrace)).lexes
    | cons m rest =>
      have hkey := (((lexesClosed_token .openBrace).append
        (lexesClosed_newLine (level + 1))).append (lexesClosed_quote m.1)).append
          lexesClosed_colon
      have hfirst := hkey.append_lexes (ih m List.mem_cons_self (level + 1))
      have hall := hfirst.append_members
        fun w hw => ih w (List.mem_cons_of_mem _ hw) (level + 1)
      have hclose := hall.append_closed
        ((lexesClosed_newLine level).append (lexesClosed_token .closeBrace))
        (by simp [newLine]) (endsNumber_newLine level _)
      rw [Value.write, Value.tokens]
      simpa only [List.append_assoc, List.cons_append, List.nil_append, List.append_nil]
        using hclose.lexes

/-! ## Reading tokens -/

/-- The tokens of a value, and not fewer calls than they need, give the value. -/
def Value.Reads (depth : Nat) (v : Value) : Prop :=
  ∀ lexemes rest fuel, lexemes.map Lexeme.token = v.tokens →
    2 * v.tokens.length ≤ fuel → parseValue fuel depth (lexemes ++ rest) = some (v, rest)

/-- The first token of a value closes nothing. -/
theorem Value.tokens_eq_cons (v : Value) :
    ∃ t ts, v.tokens = t :: ts ∧ t ≠ .closeBracket ∧ t ≠ .closeBrace := by
  cases v with
  | null => exact ⟨_, _, rfl, by simp, by simp⟩
  | bool b => exact ⟨_, _, rfl, by simp, by simp⟩
  | number n => exact ⟨_, _, rfl, by simp, by simp⟩
  | string s => exact ⟨_, _, rfl, by simp, by simp⟩
  | array items =>
    cases items with
    | nil => exact ⟨_, _, rfl, by simp, by simp⟩
    | cons first rest => exact ⟨_, _, rfl, by simp, by simp⟩
  | object members =>
    cases members with
    | nil => exact ⟨_, _, rfl, by simp, by simp⟩
    | cons m rest => exact ⟨_, _, rfl, by simp, by simp⟩

theorem Value.length_tokens_pos (v : Value) : 0 < v.tokens.length := by
  obtain ⟨t, ts, h, -⟩ := v.tokens_eq_cons
  rw [h]
  exact Nat.succ_pos _

/-- A token at the head of some lexemes. -/
theorem exists_lexeme_cons {lexemes : List Lexeme} {t : Token} {ts : List Token}
    (h : lexemes.map Lexeme.token = t :: ts) :
    ∃ l rest, lexemes = l :: rest ∧ l.token = t ∧ rest.map Lexeme.token = ts := by
  cases lexemes with
  | nil => cases h
  | cons l rest =>
    rw [List.map_cons, List.cons.injEq] at h
    exact ⟨l, rest, rfl, h.1, h.2⟩

/-- A value that is a single token. -/
theorem Value.reads_of_token {depth : Nat} {v : Value} {t : Token} (htokens : v.tokens = [t])
    (hread : ∀ fuel (l : Lexeme) rest, l.token = t →
      parseValue (fuel + 1) depth (l :: rest) = some (v, rest)) : v.Reads depth := by
  intro lexemes rest fuel hmap hfuel
  rw [htokens] at hmap hfuel
  obtain ⟨l, more, rfl, hl, hmore⟩ := exists_lexeme_cons hmap
  obtain ⟨fuel, rfl⟩ : ∃ k, fuel = k + 1 := ⟨fuel - 1, by simp at hfuel; omega⟩
  rw [List.map_eq_nil_iff.1 hmore]
  exact hread fuel l rest hl

theorem Value.reads_null (depth : Nat) : Value.null.Reads depth :=
  Value.reads_of_token rfl fun fuel l rest hl => by simp only [parseValue, hl]

theorem Value.reads_bool (depth : Nat) (b : Bool) : (Value.bool b).Reads depth :=
  Value.reads_of_token rfl fun fuel l rest hl => by simp only [parseValue, hl]

theorem Value.reads_number (depth : Nat) (n : Number) : (Value.number n).Reads depth :=
  Value.reads_of_token rfl fun fuel l rest hl => by simp only [parseValue, hl]

theorem Value.reads_string (depth : Nat) (s : String) : (Value.string s).Reads depth :=
  Value.reads_of_token rfl fun fuel l rest hl => by simp only [parseValue, hl]

/-! ## Lists -/

/-- The items of a list, up to its closing bracket. -/
theorem parseItems_reads {depth : Nat} {first : Value} {items : List Value}
    (hfirst : first.Reads depth) (hitems : ∀ v ∈ items, v.Reads depth)
    {lexemes : List Lexeme} (rest : List Lexeme) (fuel : Nat)
    (hmap : lexemes.map Lexeme.token = first.tokens ++ itemTokens items ++ [.closeBracket])
    (hfuel : 2 * (first.tokens ++ itemTokens items).length + 1 ≤ fuel) :
    parseItems fuel depth (lexemes ++ rest) = some (first :: items, rest) := by
  induction items generalizing first lexemes fuel with
  | nil =>
    obtain ⟨fuel, rfl⟩ : ∃ k, fuel = k + 1 := ⟨fuel - 1, by omega⟩
    rw [itemTokens, List.append_nil] at hmap hfuel
    obtain ⟨ls, close, rfl, hls, hclose⟩ := List.map_eq_append_iff.1 hmap
    obtain ⟨c, more, rfl, hc, hmore⟩ := exists_lexeme_cons hclose
    rw [List.map_eq_nil_iff.1 hmore, List.append_assoc, parseItems,
      hfirst ls _ fuel hls (by omega)]
    simp only [List.cons_append, List.nil_append, List.head?_cons, Option.map_some, hc,
      List.drop_succ_cons, List.drop_zero]
  | cons v items ih =>
    obtain ⟨fuel, rfl⟩ : ∃ k, fuel = k + 1 := ⟨fuel - 1, by omega⟩
    have hpos := first.length_tokens_pos
    rw [itemTokens] at hmap hfuel
    rw [List.append_assoc] at hmap
    obtain ⟨ls, tail, rfl, hls, htail⟩ := List.map_eq_append_iff.1 hmap
    obtain ⟨c, more, rfl, hc, hmore⟩ := exists_lexeme_cons htail
    simp only [List.length_append, List.length_cons] at hfuel
    have hread := ih (hitems v List.mem_cons_self)
      (fun w hw => hitems w (List.mem_cons_of_mem _ hw)) fuel hmore
      (by rw [List.length_append]; omega)
    rw [List.append_assoc, parseItems, hfirst ls _ fuel hls (by omega)]
    simp only [List.cons_append, List.head?_cons, Option.map_some, hc, List.drop_succ_cons,
      List.drop_zero, hread]

theorem Value.reads_array {depth : Nat} {items : List Value}
    (h : ∀ v ∈ items, v.Reads depth) : (Value.array items).Reads (depth + 1) := by
  intro lexemes rest fuel hmap hfuel
  cases items with
  | nil =>
    rw [Value.tokens] at hmap hfuel
    obtain ⟨l, more, rfl, hl, hmore⟩ := exists_lexeme_cons hmap
    obtain ⟨c, more, rfl, hc, hnil⟩ := exists_lexeme_cons hmore
    obtain ⟨fuel, rfl⟩ : ∃ k, fuel = k + 1 := ⟨fuel - 1, by simp at hfuel; omega⟩
    rw [List.map_eq_nil_iff.1 hnil]
    simp only [List.cons_append, List.nil_append, parseValue, hl, Nat.add_eq_zero_iff,
      Nat.one_ne_zero, and_false, if_false, List.head?_cons, Option.map_some, hc,
      List.drop_succ_cons, List.drop_zero]
  | cons first items =>
    rw [Value.tokens] at hmap hfuel
    obtain ⟨l, more, rfl, hl, hmore⟩ := exists_lexeme_cons hmap
    simp only [List.length_append, List.length_cons, List.length_nil] at hfuel
    obtain ⟨fuel, rfl⟩ : ∃ k, fuel = k + 1 := ⟨fuel - 1, by omega⟩
    have hread := parseItems_reads (h first List.mem_cons_self)
      (fun v hv => h v (List.mem_cons_of_mem _ hv)) rest fuel hmore
      (by rw [List.length_append]; omega)
    -- the list is not empty, since its first token closes nothing
    obtain ⟨t, ts, hts, hclose, -⟩ := first.tokens_eq_cons
    rw [hts, List.cons_append, List.cons_append] at hmore
    obtain ⟨k, more, rfl, hk, -⟩ := exists_lexeme_cons hmore
    rw [List.cons_append] at hread
    simp only [List.cons_append, parseValue, hl, Nat.add_eq_zero_iff, Nat.one_ne_zero,
      and_false, if_false, List.head?_cons, Option.map_some, hk, Nat.add_sub_cancel]
    split
    · rename_i heq
      exact absurd (Option.some.inj heq) hclose
    · rw [hread]
      rfl

/-! ## Objects -/

/-- The members of an object, up to its closing brace. -/
theorem parseMembers_reads {depth : Nat} {key : String} {value : Value}
    {members : List (String × Value)} (hvalue : value.Reads depth)
    (hmembers : ∀ m ∈ members, m.2.Reads depth) {lexemes : List Lexeme}
    (rest : List Lexeme) (fuel : Nat) (hmap : lexemes.map Lexeme.token =
      .string (.ok key) :: .colon :: (value.tokens ++ memberTokens members ++ [.closeBrace]))
    (hfuel : 2 * (value.tokens ++ memberTokens members).length + 1 ≤ fuel) :
    parseMembers fuel depth (lexemes ++ rest) = some ((key, value) :: members, rest) := by
  induction members generalizing key value lexemes fuel with
  | nil =>
    obtain ⟨fuel, rfl⟩ : ∃ k, fuel = k + 1 := ⟨fuel - 1, by omega⟩
    obtain ⟨k, more, rfl, hk, hmore⟩ := exists_lexeme_cons hmap
    obtain ⟨colon, more, rfl, hcolon, hbody⟩ := exists_lexeme_cons hmore
    rw [memberTokens, List.append_nil] at hbody hfuel
    obtain ⟨ls, close, rfl, hls, hclose⟩ := List.map_eq_append_iff.1 hbody
    obtain ⟨c, more, rfl, hc, hnil⟩ := exists_lexeme_cons hclose
    have hread := hvalue ls (c :: rest) fuel hls (by omega)
    rw [List.map_eq_nil_iff.1 hnil]
    simp only [List.cons_append, List.append_assoc, List.nil_append, parseMembers,
      List.head?_cons, Option.map_some, hk, hcolon, List.drop_succ_cons, List.drop_zero, hread,
      hc]
  | cons m members ih =>
    obtain ⟨fuel, rfl⟩ : ∃ k, fuel = k + 1 := ⟨fuel - 1, by omega⟩
    obtain ⟨k, more, rfl, hk, hmore⟩ := exists_lexeme_cons hmap
    obtain ⟨colon, more, rfl, hcolon, hbody⟩ := exists_lexeme_cons hmore
    have hpos := value.length_tokens_pos
    rw [memberTokens] at hbody hfuel
    rw [List.append_assoc] at hbody
    obtain ⟨ls, tail, rfl, hls, htail⟩ := List.map_eq_append_iff.1 hbody
    obtain ⟨c, more, rfl, hc, hnext⟩ := exists_lexeme_cons htail
    simp only [List.length_append, List.length_cons] at hfuel
    have hread := hvalue ls (c :: (more ++ rest)) fuel hls (by omega)
    have hrest := ih (hmembers m List.mem_cons_self)
      (fun w hw => hmembers w (List.mem_cons_of_mem _ hw)) fuel hnext
      (by rw [List.length_append]; omega)
    simp only [List.cons_append, List.append_assoc, parseMembers, List.head?_cons,
      Option.map_some, hk, hcolon, List.drop_succ_cons, List.drop_zero, hread, hc, hrest]

theorem Value.reads_object {depth : Nat} {members : List (String × Value)}
    (h : ∀ m ∈ members, m.2.Reads depth) : (Value.object members).Reads (depth + 1) := by
  intro lexemes rest fuel hmap hfuel
  cases members with
  | nil =>
    rw [Value.tokens] at hmap hfuel
    obtain ⟨l, more, rfl, hl, hmore⟩ := exists_lexeme_cons hmap
    obtain ⟨c, more, rfl, hc, hnil⟩ := exists_lexeme_cons hmore
    obtain ⟨fuel, rfl⟩ : ∃ k, fuel = k + 1 := ⟨fuel - 1, by simp at hfuel; omega⟩
    rw [List.map_eq_nil_iff.1 hnil]
    simp only [List.cons_append, List.nil_append, parseValue, hl, Nat.add_eq_zero_iff,
      Nat.one_ne_zero, and_false, if_false, List.head?_cons, Option.map_some, hc,
      List.drop_succ_cons, List.drop_zero]
  | cons m members =>
    rw [Value.tokens] at hmap hfuel
    obtain ⟨l, more, rfl, hl, hmore⟩ := exists_lexeme_cons hmap
    simp only [List.length_append, List.length_cons, List.length_nil] at hfuel
    obtain ⟨fuel, rfl⟩ : ∃ k, fuel = k + 1 := ⟨fuel - 1, by omega⟩
    have hread := parseMembers_reads (h m List.mem_cons_self)
      (fun w hw => h w (List.mem_cons_of_mem _ hw)) rest fuel hmore
      (by rw [List.length_append]; omega)
    obtain ⟨k, more, rfl, hk, -⟩ := exists_lexeme_cons hmore
    rw [List.cons_append] at hread
    simp only [List.cons_append, parseValue, hl, Nat.add_eq_zero_iff, Nat.one_ne_zero,
      and_false, if_false, List.head?_cons, Option.map_some, hk, Nat.add_sub_cancel, hread]

/-! ## Whole texts -/

theorem Value.reads {depth : Nat} {v : Value} (h : v.Fits depth) : v.Reads depth := by
  induction h with
  | null => exact Value.reads_null _
  | bool b => exact Value.reads_bool _ b
  | number _ => exact Value.reads_number _ _
  | string s => exact Value.reads_string _ s
  | array _ ih => exact Value.reads_array ih
  | object _ ih => exact Value.reads_object ih

/-- The tokens of a written value. -/
theorem map_token_ofText_pretty {depth : Nat} {v : Value} (h : v.Fits depth) :
    (Tokens.ofText v.pretty).lexemes.map Lexeme.token = v.tokens := by
  obtain ⟨s', hs'⟩ := Value.lexes h 0 .start [] (by simp [EndsNumber])
  rw [List.append_nil, viewsFrom_nil, List.append_nil] at hs'
  rw [Tokens.ofText, Value.pretty, String.toList_ofList]
  exact hs'

/-- **Writing and reading a value gives the value.** -/
theorem parse?_pretty {v : Value} (h : v.Fits deepest) : parse? v.pretty = some v := by
  have hmap := map_token_ofText_pretty h
  have hlength := congrArg List.length hmap
  rw [List.length_map] at hlength
  have hread := Value.reads h (Tokens.ofText v.pretty).lexemes []
    (2 * (Tokens.ofText v.pretty).lexemes.length + 2) hmap (by omega)
  rw [List.append_nil] at hread
  simp only [parse?, hread]

end ScriptInventory.Json
