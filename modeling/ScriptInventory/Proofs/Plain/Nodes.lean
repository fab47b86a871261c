import ScriptInventory.Proofs.Grammar.Script
import ScriptInventory.Script.Plain.Read

/-!
# Nodes of plain scripts show the tokens

The reader of plain scripts drops no name and no value: each is a leaf of the tree. Where it
reads the keyword of a class or a function, the tree has a node that starts there and declares
the name behind the keyword (`shown_of_statements?`).

`Shown ns ts rest` is what each reader keeps: the nodes `ns` show the tokens of `ts` in front of
`rest`.
-/

namespace ScriptInventory.Script.Plain

open Grammar

/-! ## Tokens and nodes -/

def opener : Keyword → Opener
  | .class => .class
  | .function => .function

def Form.text? : Form → Option String
  | .name text | .number text | .quoted text => some text
  | .opener _ | .sign _ | .dots => none

/-- Whether a token leaves nothing in the tree: a sign, or a word that opens no more than
variables. -/
def Form.isSilent : Form → Bool
  | .sign _ | .dots | .opener .let | .opener .const | .opener .var => true
  | .name _ | .number _ | .quoted _ | .opener .class | .opener .function => false

def leafKinds : List Kind :=
  [.identifier, .propertyIdentifier, .shorthandPropertyIdentifierPattern, .number, .string]

/-- A leaf for a name or a value. -/
structure Token.IsLeaf (t : Token) (n : Node) : Prop where
  leaf : n.children = []
  text : t.form.text? = some n.text
  start : n.start = t.place
  kind : n.kind ∈ leafKinds

/-- A node that a keyword at a place opens, and that declares a name. -/
structure Declares (k : Keyword) (p : Place) (name : String) (n : Node) : Prop where
  kind : n.kind ∈ k.kinds
  start : n.start = p
  name : (n.child? .name).map Node.text = some name

/-- The nodes `ns` show the tokens up to some point. -/
inductive Shown (ns : List Node) : List Token → List Token → Prop
  | refl {ts : List Token} : Shown ns ts ts
  | silent {t : Token} {ts rest : List Token} (ht : t.form.isSilent) (h : Shown ns ts rest) :
      Shown ns (t :: ts) rest
  | leaf {t : Token} {ts rest : List Token} {n : Node} (hn : n ∈ ns) (ht : t.IsLeaf n)
      (h : Shown ns ts rest) : Shown ns (t :: ts) rest
  | keyword {k : Keyword} {p q : Place} {l m : Bool} {name : String} {ts rest : List Token}
      {n : Node} (hn : n ∈ ns) (hd : Declares k p name n)
      (h : Shown ns (⟨.name name, q, m⟩ :: ts) rest) :
      Shown ns (⟨.opener (opener k), p, l⟩ :: ⟨.name name, q, m⟩ :: ts) rest

/-- Nodes that are among others, perhaps in another role. -/
def Among (ns ms : List Node) : Prop := ∀ n ∈ ns, n ∈ ms ∨ ∃ role, n.withRole role ∈ ms

namespace Among

variable {n : Node} {ns ms : List Node}

theorem of_subset (h : ns ⊆ ms) : Among ns ms := fun _ hn => .inl (h hn)

theorem of_mem (h : n ∈ ns) : Among n.preorder (Node.preorderAll ns) := by
  refine of_subset fun m hm => ?_
  induction ns with
  | nil => cases h
  | cons a ns ih =>
    rw [Node.preorderAll_cons, List.mem_append]
    rcases List.mem_cons.1 h with rfl | h
    · exact .inl hm
    · exact .inr (ih h)

theorem withRole (n : Node) (role : Role) : Among n.preorder (n.withRole role).preorder := by
  intro m hm
  rw [Node.preorder_eq, List.mem_cons] at hm
  rw [Node.preorder_eq]
  rcases hm with rfl | hm
  · exact .inr ⟨role, List.mem_cons_self⟩
  · exact .inl (List.mem_cons_of_mem _ hm)

theorem children (n : Node) : Among (Node.preorderAll n.children) n.preorder := by
  rw [Node.preorder_eq]
  exact of_subset (List.subset_cons_self ..)

end Among

namespace Shown

variable {n : Node} {ns ms : List Node} {ts mid rest : List Token}

theorem trans (h : Shown ns ts mid) (h' : Shown ns mid rest) : Shown ns ts rest := by
  induction h with
  | refl => exact h'
  | silent ht _ ih => exact .silent ht (ih h')
  | leaf hn ht _ ih => exact .leaf hn ht (ih h')
  | keyword hn hd _ ih => exact .keyword hn hd (ih h')

theorem mono (h : Shown ns ts rest) (hamong : Among ns ms) : Shown ms ts rest := by
  induction h with
  | refl => exact .refl
  | silent ht _ ih => exact .silent ht ih
  | leaf hn ht _ ih =>
    rcases hamong _ hn with hm | ⟨role, hm⟩
    · exact .leaf hm ht ih
    · exact .leaf hm ⟨ht.leaf, ht.text, ht.start, ht.kind⟩ ih
  | keyword hn hd _ ih =>
    rcases hamong _ hn with hm | ⟨role, hm⟩
    · exact .keyword hm hd ih
    · exact .keyword hm ⟨hd.kind, hd.start, hd.name⟩ ih

theorem withRole (h : Shown n.preorder ts rest) (role : Role) :
    Shown (n.withRole role).preorder ts rest :=
  h.mono (.withRole n role)

theorem child (h : Shown n.preorder ts rest) (hn : n ∈ ns) :
    Shown (Node.preorderAll ns) ts rest :=
  h.mono (.of_mem hn)

theorem parent (h : Shown (Node.preorderAll n.children) ts rest) : Shown n.preorder ts rest :=
  h.mono (.children n)

/-- One tree, and those behind it. -/
theorem first (h : Shown n.preorder ts mid) (h' : Shown (Node.preorderAll ns) mid rest) :
    Shown (Node.preorderAll (n :: ns)) ts rest := by
  refine (h.child List.mem_cons_self).trans (h'.mono (.of_subset ?_))
  rw [Node.preorderAll_cons]
  exact List.subset_append_right ..

/-- A leaf shows its token. -/
theorem single {kind : Kind} {form : Form} {p : Place} {l : Bool} {text : String}
    (htext : form.text? = some text) (hkind : kind ∈ leafKinds) :
    Shown (Node.leaf kind p text).preorder (⟨form, p, l⟩ :: rest) rest := by
  refine .leaf (n := .leaf kind p text) ?_ ⟨rfl, htext, rfl, hkind⟩ .refl
  rw [Node.preorder_eq]
  exact List.mem_cons_self

/-- A node shows the keyword that opens it. -/
theorem opens {k : Keyword} {p q : Place} {l m : Bool} {name : String} (hd : Declares k p name n)
    (h : Shown n.preorder (⟨.name name, q, m⟩ :: ts) rest) :
    Shown n.preorder (⟨.opener (opener k), p, l⟩ :: ⟨.name name, q, m⟩ :: ts) rest := by
  refine .keyword ?_ hd h
  rw [Node.preorder_eq]
  exact List.mem_cons_self

/-- A name or a value that is in the tree stands in a leaf. -/
theorem exists_leaf (h : Shown ns ts []) {t : Token} (ht : t ∈ ts) {text : String}
    (htext : t.form.text? = some text) : ∃ n ∈ ns, t.IsLeaf n := by
  generalize hend : ([] : List Token) = rest at h
  induction h with
  | refl =>
    rw [← hend] at ht
    cases ht
  | silent hsilent _ ih =>
    rcases List.mem_cons.1 ht with rfl | ht
    · unfold Form.isSilent at hsilent
      unfold Form.text? at htext
      split at htext
      all_goals simp_all
    · exact ih ht hend
  | leaf hn hleaf _ ih =>
    rcases List.mem_cons.1 ht with rfl | ht
    · exact ⟨_, hn, hleaf⟩
    · exact ih ht hend
  | keyword _ _ _ ih =>
    rcases List.mem_cons.1 ht with rfl | ht
    · cases htext
    · exact ih ht hend

/-- A keyword is at the start of a node that declares the name behind it. -/
theorem exists_declares (h : Shown ns ts []) {k : Keyword} {earlier later : List Token} {p : Place}
    {l : Bool} (hts : ts = earlier ++ ⟨.opener (opener k), p, l⟩ :: later) :
    ∃ name q m behind, later = ⟨.name name, q, m⟩ :: behind ∧ ∃ n ∈ ns, Declares k p name n := by
  generalize hend : ([] : List Token) = rest at h
  induction h generalizing earlier with
  | refl =>
    rw [← hend] at hts
    cases earlier <;> cases hts
  | silent hsilent _ ih =>
    cases earlier with
    | nil =>
      cases hts
      cases k <;> cases hsilent
    | cons t earlier => exact ih (List.cons.inj hts).2 hend
  | leaf _ hleaf _ ih =>
    cases earlier with
    | nil =>
      cases hts
      cases hleaf.text
    | cons t earlier => exact ih (List.cons.inj hts).2 hend
  | @keyword k' _ q _ m name behind _ n hn hd _ ih =>
    cases earlier with
    | nil =>
      injection hts with ht hlater
      injection ht with hform hplace
      have hk : k' = k := by
        cases k <;> cases k' <;> first | rfl | cases hform
      subst hk hplace
      exact ⟨name, q, m, behind, hlater.symm, n, hn, hd⟩
    | cons t earlier => exact ih (List.cons.inj hts).2 hend

end Shown

/-! ## Readers -/

/-- A value is a leaf. -/
theorem shown_of_value? {ts rest : List Token} {n : Node} (h : value? ts = some (n, rest)) :
    Shown n.preorder ts rest := by
  unfold value? at h
  split at h
  all_goals first
    | (cases h; exact .single rfl (by decide))
    | cases h

theorem shown_of_key? {ts rest : List Token} {n : Node} (h : key? ts = some (n, rest)) :
    Shown n.preorder ts rest := by
  unfold key? at h
  split at h
  all_goals first
    | (cases h; exact .single rfl (by decide))
    | cases h

/-- The nodes of a list that is read behind those in `seen` show the tokens up to its end. -/
structure Lists (seen nodes : List Node) (ts rest : List Token) : Prop where
  seen : seen ⊆ nodes
  shown : Shown (Node.preorderAll nodes) ts rest

namespace Lists

variable {seen nodes : List Node} {n : Node} {t : Token} {ts mid rest : List Token}

theorem nil : Lists seen seen.reverse ts ts := ⟨by simp, .refl⟩

/-- One more node of the list. -/
theorem cons (hn : Shown n.preorder ts mid) (h : Lists (n :: seen) nodes mid rest) :
    Lists seen nodes ts rest where
  seen := (List.cons_subset.1 h.seen).2
  shown := (hn.child (h.seen List.mem_cons_self)).trans h.shown

/-- A sign between two nodes, or behind the last one. -/
theorem skip (ht : t.form.isSilent) (h : Lists seen nodes ts rest) :
    Lists seen nodes (t :: ts) rest := ⟨h.seen, .silent ht h.shown⟩

/-- The last node of the list. -/
theorem last (hn : Shown n.preorder ts rest) : Lists seen (n :: seen).reverse ts rest where
  seen := by simp
  shown := hn.child (by simp)

end Lists

/-! ### Patterns -/

theorem shown_of_withDefault? {target n : Node} {ts mid rest : List Token}
    (h : withDefault? target mid = some (n, rest)) (htarget : Shown target.preorder ts mid) :
    Shown n.preorder ts rest := by
  unfold withDefault? at h
  split at h
  · obtain ⟨⟨value, tail⟩, hvalue, heq⟩ := Option.map_eq_some_iff.1 h
    cases heq
    exact .parent (.first (htarget.withRole .left)
      (.silent rfl (.first (shown_of_value? hvalue) .refl)))
  · cases h
    exact htarget

/-- What the readers of patterns keep, with a bound on the open calls. -/
structure PatternsShown (fuel : Nat) : Prop where
  pattern {ts rest n} : pattern? fuel ts = some (n, rest) → Shown n.preorder ts rest
  entries {seen ts rest ns} : entries? fuel seen ts = some (ns, rest) → Lists seen ns ts rest
  moreEntries {seen ts rest ns} : moreEntries? fuel seen ts = some (ns, rest) →
    Lists seen ns ts rest
  elements {seen ts rest ns} : elements? fuel seen ts = some (ns, rest) → Lists seen ns ts rest
  moreElements {seen ts rest ns} : moreElements? fuel seen ts = some (ns, rest) →
    Lists seen ns ts rest

theorem patternsShown_zero : PatternsShown 0 where
  pattern h := by simp [pattern?] at h
  entries h := by simp [entries?] at h
  moreEntries h := by simp [moreEntries?] at h
  elements h := by simp [elements?] at h
  moreElements h := by simp [moreElements?] at h

section Step

variable {fuel : Nat} (ih : PatternsShown fuel)
include ih

theorem shown_of_pattern? {ts rest : List Token} {n : Node}
    (h : pattern? (fuel + 1) ts = some (n, rest)) : Shown n.preorder ts rest := by
  unfold pattern? at h
  split at h
  · cases h
    exact .single rfl (by decide)
  · rename_i heq
    cases heq
    obtain ⟨⟨nodes, tail⟩, hnodes, heq⟩ := Option.map_eq_some_iff.1 h
    cases heq
    exact .parent (.silent rfl (ih.entries hnodes).shown)
  · rename_i heq
    cases heq
    obtain ⟨⟨nodes, tail⟩, hnodes, heq⟩ := Option.map_eq_some_iff.1 h
    cases heq
    exact .parent (.silent rfl (ih.elements hnodes).shown)
  · cases h

theorem lists_of_moreEntries? {seen ns : List Node} {ts rest : List Token}
    (h : moreEntries? (fuel + 1) seen ts = some (ns, rest)) : Lists seen ns ts rest := by
  unfold moreEntries? at h
  split at h
  · next hfuel =>
    cases hfuel
    exact .skip rfl (ih.entries h)
  · cases h
    exact .skip rfl .nil
  · cases h

theorem lists_of_moreElements? {seen ns : List Node} {ts rest : List Token}
    (h : moreElements? (fuel + 1) seen ts = some (ns, rest)) : Lists seen ns ts rest := by
  unfold moreElements? at h
  split at h
  · next hfuel =>
    cases hfuel
    exact .skip rfl (ih.elements h)
  · cases h
    exact .skip rfl .nil
  · cases h

theorem lists_of_entries? {seen ns : List Node} {ts rest : List Token}
    (h : entries? (fuel + 1) seen ts = some (ns, rest)) : Lists seen ns ts rest := by
  unfold entries? at h
  split at h
  · cases h
    exact .skip rfl .nil
  · -- the rest of the object
    next hfuel =>
    cases hfuel
    split at h
    · next target tail htarget =>
      exact .cons (.silent rfl (.parent (.first (ih.pattern htarget) .refl)))
        (ih.moreEntries h)
    · cases h
  · -- a key with a target
    next hfuel =>
    cases hfuel
    split at h
    · next target tail htarget =>
      obtain ⟨p, hp, htarget⟩ := Option.bind_eq_some_iff.1 htarget
      have htarget := shown_of_withDefault? htarget (ih.pattern hp)
      exact .cons (.parent (.first (.single rfl (by decide))
        (.silent rfl (.first (htarget.withRole .value) .refl)))) (ih.moreEntries h)
    · cases h
  · -- a name with a default
    next hfuel =>
    cases hfuel
    split at h
    · next value tail hvalue =>
      exact .cons (.parent (.first (.withRole (.single rfl (by decide)) .left)
        (.silent rfl (.first (shown_of_value? hvalue) .refl)))) (ih.moreEntries h)
    · cases h
  · next hfuel =>
    cases hfuel
    exact .cons (.single rfl (by decide)) (ih.moreEntries h)
  · cases h

theorem lists_of_elements? {seen ns : List Node} {ts rest : List Token}
    (h : elements? (fuel + 1) seen ts = some (ns, rest)) : Lists seen ns ts rest := by
  unfold elements? at h
  split at h
  · cases h
    exact .skip rfl .nil
  · next hfuel =>
    cases hfuel
    exact .skip rfl (ih.elements h)
  · -- the rest of the array
    next hfuel =>
    cases hfuel
    split at h
    · next target tail htarget =>
      exact .cons (.silent rfl (.parent (.first (ih.pattern htarget) .refl)))
        (ih.moreElements h)
    · cases h
  · next hfuel _ _ _ =>
    cases hfuel
    split at h
    · next element tail helement =>
      obtain ⟨p, hp, helement⟩ := Option.bind_eq_some_iff.1 helement
      exact .cons (shown_of_withDefault? helement (ih.pattern hp)) (ih.moreElements h)
    · cases h
  · cases h

end Step

theorem patternsShown (fuel : Nat) : PatternsShown fuel := by
  induction fuel with
  | zero => exact patternsShown_zero
  | succ fuel ih =>
    exact ⟨shown_of_pattern? ih, lists_of_entries? ih, lists_of_moreEntries? ih,
      lists_of_elements? ih, lists_of_moreElements? ih⟩

/-! ### Variables and fields -/

theorem shown_of_initial? {ts rest : List Token} {ns : List Node}
    (h : initial? ts = some (ns, rest)) : Shown (Node.preorderAll ns) ts rest := by
  unfold initial? at h
  split at h
  · obtain ⟨⟨value, tail⟩, hvalue, heq⟩ := Option.map_eq_some_iff.1 h
    cases heq
    exact .silent rfl (.first ((shown_of_value? hvalue).withRole .value) .refl)
  · cases h
    exact .refl

theorem shown_of_ending? {ts rest : List Token} (h : ending? ts = some rest) (ns : List Node) :
    Shown ns ts rest := by
  unfold ending? at h
  split at h
  all_goals first
    | (cases h; exact .refl)
    | (cases h; exact .silent rfl .refl)
    | cases h

theorem shown_of_declarator? {fuel : Nat} {ts rest : List Token} {n : Node}
    (h : declarator? fuel ts = some (n, rest)) : Shown n.preorder ts rest := by
  obtain ⟨⟨target, mid⟩, htarget, h⟩ := Option.bind_eq_some_iff.1 h
  obtain ⟨⟨value, tail⟩, hvalue, heq⟩ := Option.map_eq_some_iff.1 h
  cases heq
  exact .parent (.first (((patternsShown fuel).pattern htarget).withRole .name)
    (shown_of_initial? hvalue))

theorem lists_of_declarators? {fuel : Nat} {seen ns : List Node} {ts rest : List Token}
    (h : declarators? fuel seen ts = some (ns, rest)) : Lists seen ns ts rest := by
  induction fuel generalizing seen ts with
  | zero => cases h
  | succ fuel ih =>
    unfold declarators? at h
    split at h
    · cases h
    · next node _ _ _ hnode =>
      exact .cons (shown_of_declarator? hnode) (.skip rfl (ih h))
    · next node _ _ hnode =>
      obtain ⟨tail, hending, heq⟩ := Option.map_eq_some_iff.1 h
      cases heq
      exact .last ((shown_of_declarator? hnode).trans (shown_of_ending? hending _))

theorem shown_of_field? {key n : Node} {ts mid rest : List Token}
    (hkey : Shown key.preorder ts mid) (h : field? key mid = some (n, rest)) :
    Shown n.preorder ts rest := by
  obtain ⟨⟨value, tail⟩, hvalue, h⟩ := Option.bind_eq_some_iff.1 h
  obtain ⟨rest, hending, heq⟩ := Option.map_eq_some_iff.1 h
  cases heq
  refine .parent (.trans (.first (hkey.withRole .property) (shown_of_initial? hvalue)) ?_)
  unfold fieldEnding? at hending
  split at hending
  · cases hending
    exact .silent rfl .refl
  · cases hending
    exact .refl
  · cases hending

/-! ### Classes and functions -/

/-- The head of a function or a method and, from its statements, the body. -/
theorem shown_of_head? {ts mid rest : List Token} {nodes : List Node → List Node}
    {body : List Node} (h : head? ts = some (nodes, mid))
    (hbody : Shown (Node.preorderAll body) mid rest) :
    Shown (Node.preorderAll (nodes body)) ts rest := by
  unfold head? at h
  split at h
  · cases h
    exact .silent rfl (.silent rfl (.silent rfl (.first .refl (.first (.parent hbody) .refl))))
  · cases h

/-- What the readers of statements and members keep. -/
structure StatementsShown (fuel : Nat) : Prop where
  statements {seen ts rest ns} : statements? fuel seen ts = some (ns, rest) → Lists seen ns ts rest
  members {seen ts rest ns} : members? fuel seen ts = some (ns, rest) → Lists seen ns ts rest

section Step

variable {fuel : Nat} (ih : StatementsShown fuel)
include ih

theorem lists_of_statements? {seen ns : List Node} {ts rest : List Token}
    (h : statements? (fuel + 1) seen ts = some (ns, rest)) : Lists seen ns ts rest := by
  unfold statements? at h
  split at h
  · cases h
    exact .nil
  · cases h
    exact .nil
  · -- a class
    next hfuel =>
    cases hfuel
    split at h
    · next hbody =>
      refine .cons (.opens (k := .class) ⟨List.mem_cons_self, rfl, rfl⟩ (.parent ?_))
        (ih.statements h)
      exact .first (.withRole (.single rfl (by decide)) .name)
        (.silent rfl (.first (.parent (ih.members hbody).shown) .refl))
    · cases h
  · -- a function
    next hfuel =>
    cases hfuel
    split at h
    · cases h
    · next nodes tail hhead =>
      split at h
      · next hbody =>
        refine .cons (.opens (k := .function) ⟨List.mem_cons_self, rfl, rfl⟩ (.parent ?_))
          (ih.statements h)
        exact .first (.withRole (.single rfl (by decide)) .name)
          (shown_of_head? hhead ((ih.statements hbody).shown.trans (.silent rfl .refl)))
      · cases h
  · next hfuel =>
    cases hfuel
    split at h
    · next hnodes =>
      exact .cons (.silent rfl (.parent (lists_of_declarators? hnodes).shown)) (ih.statements h)
    · cases h
  · next hfuel =>
    cases hfuel
    split at h
    · next hnodes =>
      exact .cons (.silent rfl (.parent (lists_of_declarators? hnodes).shown)) (ih.statements h)
    · cases h
  · next hfuel =>
    cases hfuel
    split at h
    · cases h
    · split at h
      · next hnodes =>
        exact .cons (.silent rfl (.parent (lists_of_declarators? hnodes).shown)) (ih.statements h)
      · cases h
  · cases h

theorem lists_of_members? {seen ns : List Node} {ts rest : List Token}
    (h : members? (fuel + 1) seen ts = some (ns, rest)) : Lists seen ns ts rest := by
  unfold members? at h
  split at h
  · cases h
    exact .skip rfl .nil
  · next hfuel _ =>
    cases hfuel
    split at h
    · cases h
    · -- a method
      next key p _ hkey =>
      split at h
      · cases h
      · next nodes tail hhead =>
        split at h
        · next hbody =>
          exact .cons (.parent (.first ((shown_of_key? hkey).withRole .name)
            (shown_of_head? hhead ((ih.statements hbody).shown.trans (.silent rfl .refl)))))
            (ih.members h)
        · cases h
    · -- a field
      next key _ _ hkey =>
      split at h
      · next hnode => exact .cons (shown_of_field? (shown_of_key? hkey) hnode) (ih.members h)
      · cases h
  · cases h

end Step

theorem statementsShown (fuel : Nat) : StatementsShown fuel := by
  induction fuel with
  | zero =>
    exact ⟨fun h => by simp [statements?] at h, fun h => by simp [members?] at h⟩
  | succ fuel ih => exact ⟨lists_of_statements? ih, lists_of_members? ih⟩

/-- **Trees of plain scripts show the tokens.** All tokens of a text that is read as a plain
script are shown by the nodes of its tree. -/
theorem shown_of_read? {text : String} {root : Node} (h : read? text = some root) :
    ∃ ts, tokens? text.toList = some ts ∧ Shown root.preorder ts [] := by
  obtain ⟨ts, hts, h⟩ := Option.bind_eq_some_iff.1 h
  dsimp only at h
  split at h
  · next nodes hnodes =>
    cases h
    exact ⟨ts, hts, .parent ((statementsShown _).statements hnodes).shown⟩
  · cases h

end ScriptInventory.Script.Plain
