import ScriptInventory.Proofs.Json.Expected

/-!
# Reading structures

Members that a structure does not have are skipped, whatever their values are: a document can
always be skipped (`Document.skips`). The fields of a structure are places of the state in which
it is read (`Layout`). If the fields of a structure occur at most once among the members of an
object, then reading the structure fills each place with what the member of its name stands for,
and leaves the others empty (`Layout.reads`); neither the order of the members nor those
without a field matter.
-/

namespace ScriptInventory.Json

/-! ## Skipping -/

/-- A document is skipped as a whole, if there is fuel for each of its lexemes. -/
def Skips (d : Document) : Prop :=
  ∀ (ls rest : List Lexeme) (finish : Spot) (fuel : Nat), ls.map Lexeme.sign = d.signs →
    2 * ls.length ≤ fuel → skipValue fuel ⟨ls ++ rest, finish⟩ = .ok ⟨rest, finish⟩

theorem skips_of_plain {d : Document} (h : ∀ sign, d.signs.head? = some sign → sign.IsPlain) :
    Skips d := by
  intro ls rest finish fuel hsigns hfuel
  obtain ⟨l, more, rfl, hstart, hd, hplain⟩ := Document.exists_lexeme hsigns
  have hl : l.sign.IsPlain := h l.sign (by rw [hd]; rfl)
  obtain rfl := hplain hl
  obtain ⟨fuel, rfl⟩ : ∃ k, fuel = k + 1 := ⟨fuel - 1, by simp at hfuel; omega⟩
  have hskipped : l.skipped = none := by
    have hdescribes := l.describes_sign
    cases hsign : l.sign <;> rw [hsign] at hstart hdescribes <;>
    first
      | exact hdescribes.2
      | exact hstart.elim
  have htoken : l.token ≠ .openBracket ∧ l.token ≠ .openBrace := by
    constructor <;>
    · intro ht
      simp [Lexeme.sign, ht, hskipped, Sign.IsPlain] at hl
  simp only [List.cons_append, List.nil_append, skipValue, hskipped]
  split
  · next heq => exact absurd heq htoken.1
  · next heq => exact absurd heq htoken.2
  · rfl

/-- The items of a list are skipped with its end. -/
theorem skipItems_eq {items : List Document} (h : ∀ d ∈ items, Skips d) {first : Bool}
    {ls : List Lexeme} (hsigns : ls.map Lexeme.sign = itemSigns first items) {close : Lexeme}
    (hclose : close.sign = .closeBracket) {fuel : Nat} (hfuel : 2 * ls.length + 1 ≤ fuel)
    (rest : List Lexeme) (finish : Spot) :
    skipItems fuel first ⟨ls ++ close :: rest, finish⟩ = .ok ⟨rest, finish⟩ := by
  induction items generalizing first ls fuel with
  | nil =>
    obtain ⟨fuel, rfl⟩ : ∃ k, fuel = k + 1 := ⟨fuel - 1, by omega⟩
    rw [itemSigns.eq_def] at hsigns
    obtain rfl := List.map_eq_nil_iff.1 hsigns
    have ht : close.token = .closeBracket := Lexeme.describes hclose
    simp only [List.nil_append, skipItems, Input.token?, List.head?_cons, Option.map_some, ht,
      Input.eat, List.drop_succ_cons, List.drop_zero]
  | cons d items ih =>
    obtain ⟨fuel, rfl⟩ : ∃ k, fuel = k + 1 := ⟨fuel - 1, by omega⟩
    obtain ⟨hd, hitems⟩ := List.forall_mem_cons.1 h
    obtain ⟨gap, own, more, rfl, hgap, hown, hmore⟩ := exists_itemLexemes hsigns
    obtain ⟨l, tail, rfl, hstart, -, -⟩ := Document.exists_lexeme hown
    obtain ⟨-, hl, hcomma, -⟩ := Lexeme.token_ne_of_isStart hstart
    simp only [List.length_append, List.length_cons] at hfuel
    have hskip := hd (l :: tail) (more ++ close :: rest) finish fuel hown
      (by rw [List.length_cons]; omega)
    -- each call of `skipItems` and of `skipValue` takes one off the fuel, and an item is no shorter
    have hless : 2 * more.length + 1 ≤ fuel := by omega
    have hstep : skipItems (fuel + 1) first
        ⟨gap ++ (l :: tail ++ more) ++ close :: rest, finish⟩ =
        (skipValue fuel ⟨l :: tail ++ (more ++ close :: rest), finish⟩ >>=
          skipItems fuel false) := by
      cases first with
      | true =>
        obtain rfl := List.map_eq_nil_iff.1 hgap
        simp [skipItems, Input.token?]
      -- behind an item the comma is read first
      | false =>
        obtain ⟨c, none, rfl, hc, hnone⟩ := exists_lexeme_of_map hgap
        obtain rfl := List.map_eq_nil_iff.1 hnone
        have hc : c.token = .comma := Lexeme.describes hc
        simp [skipItems, Input.token?, Input.eat, hc]
    rw [hstep, hskip]
    exact ih hitems hmore hless

/-- The members of an object are skipped with its end. -/
theorem skipMembers_eq {members : List (String × Document)} (h : ∀ m ∈ members, Skips m.2)
    {first : Bool} {ls : List Lexeme} (hsigns : ls.map Lexeme.sign = memberSigns first members)
    {close : Lexeme} (hclose : close.sign = .closeBrace) {fuel : Nat}
    (hfuel : 2 * ls.length + 1 ≤ fuel) (rest : List Lexeme) (finish : Spot) :
    skipMembers fuel first ⟨ls ++ close :: rest, finish⟩ = .ok ⟨rest, finish⟩ := by
  induction members generalizing first ls fuel with
  | nil =>
    obtain ⟨fuel, rfl⟩ : ∃ k, fuel = k + 1 := ⟨fuel - 1, by omega⟩
    rw [memberSigns.eq_def] at hsigns
    obtain rfl := List.map_eq_nil_iff.1 hsigns
    have ht : close.token = .closeBrace := Lexeme.describes hclose
    simp only [List.nil_append, skipMembers, Input.token?, List.head?_cons, Option.map_some, ht,
      Input.eat, List.drop_succ_cons, List.drop_zero]
  | cons m members ih =>
    obtain ⟨hm, hmembers⟩ := List.forall_mem_cons.1 h
    obtain ⟨gap, k, colon, own, more, rfl, hgap, hk, hcolon, hown, hmore⟩ :=
      exists_memberLexemes hsigns
    simp only [List.length_append, List.length_cons] at hfuel
    obtain ⟨fuel, rfl⟩ : ∃ k, fuel = k + 2 := ⟨fuel - 2, by omega⟩
    obtain ⟨hkey, hsound⟩ : k.token = .string (.ok m.1) ∧ k.skipped = none :=
      Lexeme.describes hk
    have hcolon : colon.token = .colon := Lexeme.describes hcolon
    have hskip := hm own (more ++ close :: rest) finish fuel hown (by omega)
    -- from the key on it is the same for the first member and for later ones
    have hmember : skipMember (fuel + 1)
        ⟨k :: colon :: (own ++ (more ++ close :: rest)), finish⟩ = .ok ⟨rest, finish⟩ := by
      simp only [skipMember, hkey, hsound, Input.token?, Input.eat, List.drop_succ_cons,
        List.drop_zero, List.head?_cons, Option.map_some, hcolon]
      rw [hskip]
      exact ih hmembers hmore (by omega)
    cases first with
    | true =>
      obtain rfl := List.map_eq_nil_iff.1 hgap
      simp [skipMembers, Input.token?, hkey, hmember]
    | false =>
      obtain ⟨c, none, rfl, hc, hnone⟩ := exists_lexeme_of_map hgap
      obtain rfl := List.map_eq_nil_iff.1 hnone
      have hc : c.token = .comma := Lexeme.describes hc
      simp [skipMembers, Input.token?, Input.eat, hc, hmember]

/-- **Every document can be skipped**, whatever it is and however deep it is. -/
theorem Document.skips (d : Document) : Skips d := by
  induction d with
  | array items ih =>
    intro ls rest finish fuel hsigns hfuel
    rw [Document.signs] at hsigns
    obtain ⟨o, body, c, rfl, ho, hbody, hc⟩ := exists_enclosed hsigns
    simp only [List.length_append, List.length_cons, List.length_nil] at hfuel
    obtain ⟨fuel, rfl⟩ : ∃ k, fuel = k + 1 := ⟨fuel - 1, by omega⟩
    obtain ⟨htoken, hskipped⟩ : o.token = .openBracket ∧ o.skipped = none := Lexeme.describes ho
    have hless : 2 * body.length + 1 ≤ fuel := by omega
    have hitems := skipItems_eq ih hbody hc hless rest finish
    simpa [skipValue, hskipped, htoken, Input.eat] using hitems
  | object members ih =>
    intro ls rest finish fuel hsigns hfuel
    rw [Document.signs] at hsigns
    obtain ⟨o, body, c, rfl, ho, hbody, hc⟩ := exists_enclosed hsigns
    simp only [List.length_append, List.length_cons, List.length_nil] at hfuel
    obtain ⟨fuel, rfl⟩ : ∃ k, fuel = k + 1 := ⟨fuel - 1, by omega⟩
    obtain ⟨htoken, hskipped⟩ : o.token = .openBrace ∧ o.skipped = none := Lexeme.describes ho
    have hless : 2 * body.length + 1 ≤ fuel := by omega
    have hmembers := skipMembers_eq ih hbody hc hless rest finish
    simpa [skipValue, hskipped, htoken, Input.eat] using hmembers
  | number w =>
    apply skips_of_plain
    obtain ⟨n, -, h⟩ | ⟨-, h⟩ := Document.signs_number w <;> simp [h, Sign.IsPlain]
  | _ =>
    apply skips_of_plain
    simp [Document.signs, Sign.IsPlain]

theorem Document.skip_eq (d : Document) {ls : List Lexeme} (hsigns : ls.map Lexeme.sign = d.signs)
    (rest : List Lexeme) (finish : Spot) : skip ⟨ls ++ rest, finish⟩ = .ok ⟨rest, finish⟩ := by
  apply d.skips ls rest finish _ hsigns
  simp only [List.length_append]
  omega

/-! ## Fields -/

/-- A name occurs at most once among members. -/
def AtMostOnce (name : String) (members : List (String × Document)) : Prop :=
  (members.map Prod.fst).count name ≤ 1

instance (name : String) (members : List (String × Document)) :
    Decidable (AtMostOnce name members) :=
  inferInstanceAs (Decidable (_ ≤ _))

theorem AtMostOnce.of_cons {name : String} {m : String × Document}
    {members : List (String × Document)} (h : AtMostOnce name (m :: members)) :
    AtMostOnce name members :=
  Nat.le_trans (List.Sublist.count_le name (List.sublist_cons_self _ _)) h

/-- Behind the only member of a name there is no other. -/
theorem AtMostOnce.not_mem {m : String × Document} {members : List (String × Document)}
    (h : AtMostOnce m.1 (m :: members)) : m.1 ∉ members.map Prod.fst := by
  rw [AtMostOnce, List.map_cons, List.count_cons_self] at h
  exact List.count_eq_zero.1 (by omega)

theorem lookup_eq_none_of_not_mem {name : String} {members : List (String × Document)}
    (h : name ∉ members.map Prod.fst) : members.lookup name = none := by
  rw [List.lookup_eq_none_iff]
  intro p hp
  rw [bne_iff_ne]
  rintro rfl
  exact h (List.mem_map_of_mem hp)

/-- The member of a name is found if no other has the name. -/
theorem AtMostOnce.lookup_eq_some_iff {name : String} {members : List (String × Document)}
    (h : AtMostOnce name members) {d : Document} :
    members.lookup name = some d ↔ (name, d) ∈ members := by
  induction members with
  | nil => simp
  | cons m rest ih =>
    rw [List.lookup_cons, List.mem_cons]
    by_cases heq : name = m.1
    · subst heq
      have hrest : (m.1, d) ∉ rest := fun hmem =>
        h.not_mem (List.mem_map.2 ⟨_, hmem, rfl⟩)
      simp [Prod.ext_iff, hrest, eq_comm]
    · rw [beq_eq_false_iff_ne.2 heq, ih h.of_cons]
      simp [Prod.ext_iff, heq]

/-- Two objects have the same members of some names, perhaps in another order. -/
def SameMembers (names : List String) (members members' : List (String × Document)) : Prop :=
  (members.filter fun m => m.1 ∈ names).Perm (members'.filter fun m => m.1 ∈ names)

namespace SameMembers

variable {names : List String} {members members' : List (String × Document)} {name : String}

theorem atMostOnce (h : SameMembers names members members') (hname : name ∈ names)
    (honce : AtMostOnce name members) : AtMostOnce name members' := by
  have hcount : ∀ ms : List (String × Document), (ms.map Prod.fst).count name =
      (ms.filter fun m => m.1 ∈ names).countP fun m => m.1 == name := by
    intro ms
    rw [List.count, List.countP_map, List.countP_filter]
    apply List.countP_congr
    intro m _
    simp only [Function.comp_apply, beq_iff_eq, Bool.and_eq_true, decide_eq_true_eq]
    exact ⟨fun heq => ⟨heq, heq ▸ hname⟩, And.left⟩
  rw [AtMostOnce, hcount, List.Perm.countP_eq _ h] at honce
  rwa [AtMostOnce, hcount]

theorem lookup_eq (h : SameMembers names members members') (hname : name ∈ names)
    (honce : AtMostOnce name members) : members'.lookup name = members.lookup name := by
  apply Option.ext
  intro d
  rw [honce.lookup_eq_some_iff, (h.atMostOnce hname honce).lookup_eq_some_iff]
  have hmem := h.mem_iff (a := (name, d))
  simp only [List.mem_filter, hname, decide_true, and_true] at hmem
  exact hmem.symm

end SameMembers

/-- The fields of a structure, as places of the state in which it is read. -/
structure Layout (σ : Type) where
  /-- The fields. -/
  Key : Type
  keys : List Key
  mem_keys : ∀ k, k ∈ keys
  name : Key → String
  name_injective : Function.Injective name
  /-- What a field is read as. -/
  Value : Key → Type
  read : (k : Key) → Reader (Value k)
  get : (k : Key) → σ → Option (Value k)
  set : (k : Key) → Value k → σ → σ
  get_set : ∀ k v s, get k (set k v s) = some v
  get_set_of_ne : ∀ {k k'} v s, k' ≠ k → get k' (set k v s) = get k' s
  ext : ∀ {s s'}, (∀ k, get k s = get k s') → s = s'

namespace Layout

variable {σ : Type} (L : Layout σ)

def field (k : L.Key) : Field σ :=
  ⟨L.name k, fun s => (L.get k s).isSome,
    fun s i => (L.read k i).map fun p => (L.set k p.1 s, p.2)⟩

@[simp]
theorem isSet_field (k : L.Key) (s : σ) : (L.field k).isSet s = (L.get k s).isSome := rfl

def fields : List (Field σ) := L.keys.map L.field

/-- The field of a name. -/
theorem find?_fields (k : L.Key) :
    L.fields.find? (fun f => f.name = L.name k) = some (L.field k) := by
  rw [fields, List.find?_map]
  cases h : L.keys.find? ((fun f : Field σ => decide (f.name = L.name k)) ∘ L.field) with
  | none => exact absurd (List.find?_eq_none.1 h k (L.mem_keys k)) (by simp [field])
  | some k' =>
    have hfound := List.find?_some h
    have hname : L.name k' = L.name k := of_decide_eq_true hfound
    rw [L.name_injective hname]
    rfl

/-- No field has another name. -/
theorem find?_fields_eq_none {name : String} (h : ∀ k, L.name k ≠ name) :
    L.fields.find? (fun f => f.name = name) = none := by
  rw [List.find?_eq_none]
  intro f hf
  obtain ⟨k, -, rfl⟩ := List.mem_map.1 hf
  exact fun hname => h k (of_decide_eq_true hname)

variable (kind : (k : L.Key) → Kind (L.Value k))

/-- The place of each field that is among some members is filled with what its member stands
for, and the other places stay as they are. -/
def Fills (members : List (String × Document)) (s s' : σ) : Prop :=
  ∀ k, match members.lookup (L.name k) with
    | none => L.get k s' = L.get k s
    | some d => ∃ v, kind k d v ∧ L.get k s' = some v

variable {L kind} {s s' : σ} {m : String × Document} {members : List (String × Document)}

theorem fills_nil : L.Fills kind [] s s' ↔ s' = s := by
  constructor
  · intro h
    exact L.ext fun k => h k
  · rintro rfl k
    rfl

/-- A member without a field fills nothing. -/
theorem fills_cons_of_ne (h : ∀ k, L.name k ≠ m.1) :
    L.Fills kind (m :: members) s s' ↔ L.Fills kind members s s' := by
  have hlookup : ∀ k, (m :: members).lookup (L.name k) = members.lookup (L.name k) := by
    intro k
    rw [List.lookup_cons, beq_eq_false_iff_ne.2 (h k)]
  simp only [Fills, hlookup]

/-- A member with a field fills its place. -/
theorem fills_cons {k : L.Key} (hk : L.name k = m.1) (honce : AtMostOnce m.1 (m :: members)) :
    L.Fills kind (m :: members) s s' ↔
      ∃ v, kind k m.2 v ∧ L.Fills kind members (L.set k v s) s' := by
  have hown : (m :: members).lookup (L.name k) = some m.2 := by
    rw [List.lookup_cons, hk, beq_self_eq_true]
  have hnone : members.lookup (L.name k) = none :=
    lookup_eq_none_of_not_mem (hk ▸ honce.not_mem)
  have hother : ∀ k', k' ≠ k →
      (m :: members).lookup (L.name k') = members.lookup (L.name k') := by
    intro k' hne
    rw [List.lookup_cons, ← hk, beq_eq_false_iff_ne.2 fun h => hne (L.name_injective h)]
  constructor
  · intro h
    have hfills := h k
    rw [hown] at hfills
    obtain ⟨v, hv, hget⟩ := hfills
    refine ⟨v, hv, fun k' => ?_⟩
    by_cases hne : k' = k
    · subst hne
      rw [hnone, L.get_set]
      exact hget
    · rw [L.get_set_of_ne _ _ hne, ← hother k' hne]
      exact h k'
  · rintro ⟨v, hv, h⟩ k'
    by_cases hne : k' = k
    · subst hne
      have hfills := h k'
      rw [hnone, L.get_set] at hfills
      rw [hown]
      exact ⟨v, hv, hfills⟩
    · have hfills := h k'
      rw [L.get_set_of_ne _ _ hne] at hfills
      rw [hother k' hne]
      exact hfills

/-- The members of a structure, up to its closing brace. -/
theorem readMembers_eq_ok_iff (honce : ∀ k, AtMostOnce (L.name k) members)
    (hempty : ∀ k, L.name k ∈ members.map Prod.fst → L.get k s = none)
    (hreads : ∀ k, ∀ m ∈ members, m.1 = L.name k → Reads (L.read k) (kind k) m.2)
    {first : Bool} {ls : List Lexeme} (hsigns : ls.map Lexeme.sign = memberSigns first members)
    {close : Lexeme} (hclose : close.sign = .closeBrace) {fuel : Nat} (hfuel : ls.length < fuel)
    (rest : List Lexeme) (finish : Spot) (r : σ × Input) :
    readMembers L.fields fuel first s ⟨ls ++ close :: rest, finish⟩ = .ok r ↔
      ∃ s', L.Fills kind members s s' ∧ r = (s', ⟨close :: rest, finish⟩) := by
  induction members generalizing first ls fuel s with
  | nil =>
    obtain ⟨fuel, rfl⟩ : ∃ k, fuel = k + 1 := ⟨fuel - 1, by omega⟩
    rw [memberSigns.eq_def] at hsigns
    obtain rfl := List.map_eq_nil_iff.1 hsigns
    simp [readMembers, nextKey?_close hclose, bind, Except.bind, pure, Except.pure, fills_nil,
      eq_comm]
  | cons m members ih =>
    obtain ⟨fuel, rfl⟩ : ∃ k, fuel = k + 1 := ⟨fuel - 1, by omega⟩
    obtain ⟨gap, key, colon, own, more, rfl, hgap, hkey, hcolon, hown, hmore⟩ :=
      exists_memberLexemes hsigns
    have hlength : more.length < fuel := by
      simp only [List.length_append, List.length_cons] at hfuel
      omega
    have hrest := fun s hs => ih (s := s) (fun k => (honce k).of_cons) hs
      (fun k m hm => hreads k m (List.mem_cons_of_mem _ hm)) hmore hlength
    simp only [readMembers, List.append_assoc, List.cons_append, bind_eq_ok_iff,
      nextKey?_of_isGap hgap hkey, Except.ok.injEq, exists_eq_left']
    -- the member of a field sets it, and any other one is skipped
    by_cases hfield : ∃ k, L.name k = m.1
    · obtain ⟨k, hk⟩ := hfield
      have hread : Reads ((L.field k).read s)
          (fun d s' => ∃ v, kind k d v ∧ L.set k v s = s') m.2 :=
        (hreads k m List.mem_cons_self hk.symm).map fun v => L.set k v s
      -- the field was not set before, or its name would be there twice
      have hunset : (L.field k).isSet s = false := by
        rw [isSet_field, hempty k (hk ▸ List.mem_cons_self), Option.isSome_none]
      have honly : AtMostOnce m.1 (m :: members) := hk ▸ honce k
      have hset : ∀ v k', L.name k' ∈ members.map Prod.fst → L.get k' (L.set k v s) = none := by
        intro v k' hk'
        have hne : k' ≠ k := by
          rintro rfl
          exact honly.not_mem (hk ▸ hk')
        rw [L.get_set_of_ne _ _ hne]
        exact hempty k' (List.mem_cons_of_mem _ hk')
      simp only [← hk, find?_fields, hunset, Bool.false_eq_true, if_false, bind_eq_ok_iff,
        readColon_cons hcolon, Except.ok.injEq, exists_eq_left', fills_cons hk honly,
        hread own (more ++ close :: rest) finish hown]
      constructor
      · rintro ⟨_, ⟨_, ⟨v, hv, rfl⟩, rfl⟩, hr⟩
        obtain ⟨s', hs', rfl⟩ := (hrest _ (hset v)).1 hr
        exact ⟨s', ⟨v, hv, hs'⟩, rfl⟩
      · rintro ⟨s', ⟨v, hv, hs'⟩, rfl⟩
        exact ⟨_, ⟨_, ⟨v, hv, rfl⟩, rfl⟩, (hrest _ (hset v)).2 ⟨s', hs', rfl⟩⟩
    · -- a name that no field has
      have hnone : ∀ k, L.name k ≠ m.1 := fun k hk => hfield ⟨k, hk⟩
      simp only [find?_fields_eq_none L hnone, bind_eq_ok_iff, readColon_cons hcolon,
        Except.ok.injEq, exists_eq_left', Document.skip_eq m.2 hown, fills_cons_of_ne hnone]
      exact hrest s fun k hk => hempty k (List.mem_cons_of_mem _ hk)

variable (L) (kind) in
/-- Objects in which the member of each field stands for what is in its place. -/
def IsObject : Kind σ := fun d s =>
  ∃ members, d = .object members ∧
    ∀ k, Option.Rel (kind k) (members.lookup (L.name k)) (L.get k s)

theorem isObject_object : L.IsObject kind (.object members) s ↔
    ∀ k, Option.Rel (kind k) (members.lookup (L.name k)) (L.get k s) := by
  simp only [IsObject, Document.object.injEq, exists_eq_left']

theorem fills_of_empty {empty : σ} (hempty : ∀ k, L.get k empty = none) :
    L.Fills kind members empty s ↔
      ∀ k, Option.Rel (kind k) (members.lookup (L.name k)) (L.get k s) := by
  apply forall_congr'
  intro k
  cases members.lookup (L.name k) with
  | none =>
    simp only [hempty]
    constructor
    · intro h
      rw [h]
      exact .none
    · intro h
      cases h' : L.get k s with
      | none => rfl
      | some v =>
        rw [h'] at h
        cases h
  | some d =>
    constructor
    · rintro ⟨v, hv, hget⟩
      rw [hget]
      exact .some hv
    · intro h
      generalize hget : L.get k s = v? at h
      cases h with
      | some hv => exact ⟨_, hv, rfl⟩

/-- **A structure is read from the members of its fields.** -/
theorem reads {empty : σ} (hempty : ∀ k, L.get k empty = none)
    (honce : ∀ k, AtMostOnce (L.name k) members)
    (hreads : ∀ k, ∀ m ∈ members, m.1 = L.name k → Reads (L.read k) (kind k) m.2)
    (name : String) :
    Reads (readStruct name L.fields empty) (L.IsObject kind) (.object members) := by
  intro ls rest finish hsigns r
  rw [Document.signs] at hsigns
  obtain ⟨o, body, c, rfl, ho, hbody, hc⟩ := exists_enclosed hsigns
  have hopen : o.token = .openBrace := (Lexeme.describes ho).1
  have hfuel : body.length < (o :: (body ++ [c] ++ rest)).length + 1 := by
    simp only [List.length_append, List.length_cons]
    omega
  have hread := readMembers_eq_ok_iff honce (fun k _ => hempty k) hreads hbody hc hfuel rest
    finish
  have heq : readStruct name L.fields empty ⟨o :: (body ++ [c] ++ rest), finish⟩ =
      onFailure Failure.inObject
        (readMembers L.fields ((o :: (body ++ [c] ++ rest)).length + 1) true empty
          ⟨body ++ c :: rest, finish⟩ >>=
            fun p => endObject p.2 >>= fun i => pure (p.1, i)) := by
    simp only [readStruct, Input.token?, List.head?_cons, Option.map_some, hopen, Input.eat,
      List.drop_succ_cons, List.drop_zero, List.append_assoc, List.singleton_append]
  rw [List.cons_append, heq, leave_eq_ok_iff hread (endObject_close hc rest finish)]
  simp only [isObject_object, fills_of_empty hempty]

end Layout

/-! ## Defaults -/

/-- A value is that of the member of a name, or the default if there is no such member. -/
def Gives {α : Type} (members : List (String × Document)) (name : String) (kind : Kind α)
    (default a : α) : Prop :=
  match members.lookup name with
  | none => a = default
  | some d => kind d a

theorem gives_iff {α : Type} {members : List (String × Document)} {name : String}
    {kind : Kind α} {default a : α} :
    Gives members name kind default a ↔
      ∃ a?, Option.Rel kind (members.lookup name) a? ∧ a?.getD default = a := by
  rw [Gives]
  cases members.lookup name with
  | none =>
    constructor
    · rintro rfl
      exact ⟨none, .none, rfl⟩
    · rintro ⟨_, ⟨⟩, rfl⟩
      rfl
  | some d =>
    constructor
    · intro h
      exact ⟨some a, .some h, rfl⟩
    · rintro ⟨_, h, rfl⟩
      cases h with
      | some h => exact h

/-- What a member gives does not depend on the order of the members, and not on the others. -/
theorem SameMembers.gives_iff {α : Type} {names : List String}
    {members members' : List (String × Document)} (h : SameMembers names members members')
    {name : String} (hname : name ∈ names) (honce : AtMostOnce name members) {kind : Kind α}
    {default a : α} :
    Gives members' name kind default a ↔ Gives members name kind default a := by
  rw [Gives, Gives, h.lookup_eq hname honce]

/-- There is a value if the member of the name, if there is one, stands for something. -/
theorem AtMostOnce.exists_gives_iff {α : Type} {members : List (String × Document)}
    {name : String} (h : AtMostOnce name members) {kind : Kind α} {default : α} :
    (∃ a, Gives members name kind default a) ↔ ∀ d, (name, d) ∈ members → ∃ a, kind d a := by
  simp only [← h.lookup_eq_some_iff, Gives]
  cases members.lookup name <;> simp

/-! ## Whole texts -/

/-- A reader gives the values of a whole text that it gives of its document. -/
theorem readWhole_eq_ok_iff {α : Type} {read : Reader α} {kind : Kind α} {d : Document}
    (h : Reads read kind d) {text : String} (htext : d.Spells text.toList) (a : α) :
    readWhole read text = .ok a ↔ kind d a := by
  have hread := h (Tokens.ofText text).lexemes [] (Tokens.ofText text).finish (signs_ofText htext)
  rw [List.append_nil] at hread
  constructor
  · intro hok
    unfold readWhole at hok
    dsimp only at hok
    split at hok
    · cases hok
    · cases hok
    · next heq =>
      obtain ⟨b, hb, hpair⟩ := (hread _).1 heq
      obtain ⟨rfl, rfl⟩ := Prod.mk.inj hpair
      obtain rfl := Except.ok.inj hok
      exact hb
  · intro ha
    have hok := (hread _).2 ⟨a, ha, rfl⟩
    simp only [readWhole, hok, List.isEmpty_nil, if_true]

/-- Readers that accept the same values give the same outcome, apart from the fault. -/
theorem toOption_eq_of_iff {ε α : Type} {x y : Except ε α}
    (h : ∀ a, x = .ok a ↔ y = .ok a) : x.toOption = y.toOption := by
  cases x with
  | ok a => rw [(h a).1 rfl]
  | error e =>
    cases y with
    | ok a => cases (h a).2 rfl
    | error f => rfl

end ScriptInventory.Json
