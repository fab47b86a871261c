import ScriptInventory.Proofs.Binding.Target

/-!
# Comments in patterns

Comments may stand between any two tokens, so they may be children of any node. What a
pattern binds with comments is compared with what it binds without them: no name is ever
added or moved, and none is lost unless a comment stands between the dots and the operand
of a rest pattern, which then binds nothing (`Commented.bindInto_sublist`).

* `Commented`: a tree, and the same tree with comments among the children of its nodes.
* `InBinding`: the nodes of a pattern that are searched for bound names.
-/

namespace ScriptInventory.Declaration

open Script

def IsComment (n : Node) : Prop := (n.kind = .comment ∨ n.kind = .markupComment) ∧ n.role = none

mutual

/-- The second node is the first one with comments among the children of its nodes, which
move what is behind them. -/
inductive Commented : Node → Node → Prop
  | node {n n' : Node} : n'.role = n.role → n'.kind = n.kind → n'.text = n.text →
      CommentedAll n.children n'.children → Commented n n'

/-- The second nodes are the first ones with comments in them and between them. -/
inductive CommentedAll : List Node → List Node → Prop
  | nil : CommentedAll [] []
  | keep {n n' : Node} {ns ns' : List Node} :
      Commented n n' → CommentedAll ns ns' → CommentedAll (n :: ns) (n' :: ns')
  | insert {c : Node} {ns ns' : List Node} :
      IsComment c → CommentedAll ns ns' → CommentedAll ns (c :: ns')

end

theorem Commented.role_eq {n n' : Node} (h : Commented n n') : n'.role = n.role := by
  cases h
  assumption

theorem Commented.kind_eq {n n' : Node} (h : Commented n n') : n'.kind = n.kind := by
  cases h
  assumption

/-- The first child that is no mere token. -/
def operand? (n : Node) : Option Node := n.children.find? fun c => !c.kind.isToken

/-- The nodes of a pattern that are searched for bound names. -/
inductive InBinding : Node → Node → Prop
  | self {n : Node} : InBinding n n
  | element {n c m : Node} : n.kind = .objectPattern ∨ n.kind = .arrayPattern →
      c ∈ n.children → InBinding c m → InBinding n m
  | value {n c m : Node} : n.kind = .pairPattern →
      n.child? .value = some c → InBinding c m → InBinding n m
  | left {n c m : Node} : n.kind = .assignmentPattern ∨ n.kind = .objectAssignmentPattern →
      n.child? .left = some c → InBinding c m → InBinding n m
  | operand {n c m : Node} : n.kind = .restPattern →
      operand? n = some c → InBinding c m → InBinding n m

/-- No rest pattern among the nodes that are searched has a comment between its dots and
its operand. -/
def OperandsFirst (n : Node) : Prop :=
  ∀ m, InBinding n m → m.kind = .restPattern → ∀ c, operand? m = some c → ¬IsComment c

/-! ## Names with and without comments -/

theorem IsComment.boundNames_eq {c : Node} (h : IsComment c) : boundNames c = [] := by
  refine BindingTarget.boundNames_of_not_mem ?_
  rcases h.1 with hkind | hkind <;> rw [hkind] <;> decide

theorem IsComment.isToken {c : Node} (h : IsComment c) : c.kind.isToken = false := by
  rcases h.1 with hkind | hkind <;> rw [hkind] <;> rfl

/-- Some names are among others in their order, and are all of them where `p` holds. -/
def Keeps (p : Prop) (found all : List String) : Prop := found.Sublist all ∧ (p → found = all)

theorem Keeps.refl (p : Prop) (names : List String) : Keeps p names names :=
  ⟨.refl names, fun _ => rfl⟩

theorem Keeps.mono {p q : Prop} {found all : List String} (h : Keeps p found all) (hpq : q → p) :
    Keeps q found all :=
  ⟨h.1, fun hq => h.2 (hpq hq)⟩

mutual

/-- Comments in a pattern do not change what it binds, up to rest patterns. -/
theorem Commented.keeps {n n' : Node} (h : Commented n n') :
    Keeps (OperandsFirst n') (boundNames n') (boundNames n) := by
  match h with
  | .node hrole hkind htext hchildren =>
    rw [boundNames_eq n, boundNames_eq n', hkind, htext]
    split
    · exact .refl _ _
    · exact .refl _ _
    · next hn =>
      exact hchildren.keeps_all.mono fun hfree c hc m hm =>
        hfree m (.element (.inl (hkind.trans hn)) hc hm)
    · next hn =>
      exact hchildren.keeps_all.mono fun hfree c hc m hm =>
        hfree m (.element (.inr (hkind.trans hn)) hc hm)
    · next hn =>
      exact (hchildren.keeps_role .value).mono fun hfree c hc m hm =>
        hfree m (.value (hkind.trans hn) hc hm)
    · next hn =>
      exact (hchildren.keeps_role .left).mono fun hfree c hc m hm =>
        hfree m (.left (.inl (hkind.trans hn)) hc hm)
    · next hn =>
      exact (hchildren.keeps_role .left).mono fun hfree c hc m hm =>
        hfree m (.left (.inr (hkind.trans hn)) hc hm)
    · next hn =>
      exact hchildren.keeps_first.mono fun hfree c hc =>
        ⟨fun m hm => hfree m (.operand (hkind.trans hn) hc hm),
          hfree n' .self (hkind.trans hn) c hc⟩
    · exact .refl _ _

theorem CommentedAll.keeps_all {ns ns' : List Node} (h : CommentedAll ns ns') :
    Keeps (∀ c ∈ ns', OperandsFirst c) (boundByAll ns') (boundByAll ns) := by
  match h with
  | .nil => exact .refl _ _
  | .keep hn hns =>
    rw [boundByAll, boundByAll]
    refine ⟨hn.keeps.1.append hns.keeps_all.1, fun hfree => ?_⟩
    obtain ⟨hfirst, hrest⟩ := List.forall_mem_cons.1 hfree
    rw [hn.keeps.2 hfirst, hns.keeps_all.2 hrest]
  | .insert hc hns =>
    rw [boundByAll, hc.boundNames_eq, List.nil_append]
    exact hns.keeps_all.mono fun hfree => (List.forall_mem_cons.1 hfree).2

theorem CommentedAll.keeps_role (role : Role) {ns ns' : List Node} (h : CommentedAll ns ns') :
    Keeps (∀ c, ns'.find? (fun c => c.role = some role) = some c → OperandsFirst c)
      (boundByRole role ns') (boundByRole role ns) := by
  match h with
  | .nil => exact .refl _ _
  | .keep hn hns =>
    rw [boundByRole, boundByRole, hn.role_eq]
    split
    · next hrole =>
      exact hn.keeps.mono fun hfree => hfree _ (by simp [hn.role_eq, hrole])
    · next hrole =>
      exact (hns.keeps_role role).mono fun hfree c hc =>
        hfree c (by simp [hn.role_eq, hrole, hc])
  | .insert hcomment hns =>
    have hrole : ¬(none : Option Role) = some role := nofun
    rw [boundByRole, hcomment.2, if_neg hrole]
    exact (hns.keeps_role role).mono fun hfree c hc =>
      hfree c (by simp [hcomment.2, hc])

theorem CommentedAll.keeps_first {ns ns' : List Node} (h : CommentedAll ns ns') :
    Keeps (∀ c, ns'.find? (fun c => !c.kind.isToken) = some c → OperandsFirst c ∧ ¬IsComment c)
      (boundByFirst ns') (boundByFirst ns) := by
  match h with
  | .nil => exact .refl _ _
  | .keep hn hns =>
    rw [boundByFirst, boundByFirst, hn.kind_eq]
    split
    · next htoken =>
      exact hns.keeps_first.mono fun hfree c hc =>
        hfree c (by simp [hn.kind_eq, htoken, hc])
    · next htoken =>
      exact hn.keeps.mono fun hfree => (hfree _ (by simp [hn.kind_eq, htoken])).1
  | .insert hcomment hns =>
    -- the comment is taken for the operand
    rw [boundByFirst, if_neg (by simp [hcomment.isToken]), hcomment.boundNames_eq]
    exact ⟨List.nil_sublist _, fun hfree =>
      absurd hcomment (hfree _ (by simp [hcomment.isToken])).2⟩

end

/-- Comments add no name to those that a pattern binds and move none. They take none away
either, unless one of them stands between the dots and the operand of a rest pattern. -/
theorem Commented.bindInto_sublist {n n' : Node} (h : Commented n n') (found : List String) :
    (bindInto found n').Sublist (bindInto found n) ∧
      (OperandsFirst n' → bindInto found n' = bindInto found n) := by
  rw [Declaration.bindInto_eq, Declaration.bindInto_eq]
  exact ⟨h.keeps.1.append_left found, fun hfirst => congrArg (found ++ ·) (h.keeps.2 hfirst)⟩

/-! ## A comment in front of an operand and behind it -/

theorem a_ne_empty : "a" ≠ "" := by decide

open BindingTarget in
/-- The tree of `[...a]`. -/
def spreadTree : Node :=
  .branch .arrayPattern ⟨1, 1⟩
    [.branch .restPattern ⟨1, 2⟩ [markAt 2 "...", nameAt 5 ⟨"a", a_ne_empty⟩]]

def remark (column : Nat) : Node := .leaf .comment ⟨1, column⟩ "/**/"

open BindingTarget in
/-- The tree of `[/**/...a/**/]`. -/
def remarkedTree : Node :=
  .branch .arrayPattern ⟨1, 1⟩
    [remark 2, .branch .restPattern ⟨1, 6⟩
      [markAt 6 "...", nameAt 9 ⟨"a", a_ne_empty⟩, remark 10]]

open BindingTarget in
/-- The tree of `[.../**/a]`. -/
def hiddenTree : Node :=
  .branch .arrayPattern ⟨1, 1⟩
    [.branch .restPattern ⟨1, 2⟩ [markAt 2 "...", remark 5, nameAt 9 ⟨"a", a_ne_empty⟩]]

theorem isComment_remark (column : Nat) : IsComment (remark column) := ⟨.inl rfl, rfl⟩

theorem commented_leaf (kind : Kind) (p q : Place) (text : String) :
    Commented (.leaf kind p text) (.leaf kind q text) :=
  .node rfl rfl rfl .nil

theorem commented_remarkedTree : Commented spreadTree remarkedTree :=
  .node rfl rfl rfl (.insert (isComment_remark 2) (.keep (.node rfl rfl rfl
    (.keep (commented_leaf _ _ _ _) (.keep (commented_leaf _ _ _ _)
      (.insert (isComment_remark 10) .nil)))) .nil))

theorem operandsFirst_remarkedTree : OperandsFirst remarkedTree := by
  have hleaf : ∀ kind p text, kind ≠ .restPattern → OperandsFirst (.leaf kind p text) := by
    intro kind p text hkind m hm hrest
    cases hm with
    | self => exact absurd hrest hkind
    | element _ hc | value _ hc | left _ hc | operand _ hc => cases hc
  intro m hm hrest c hc
  cases hm with
  | self => cases hrest
  | element _ hmem hm =>
    rcases List.mem_cons.1 hmem with rfl | hmem
    · exact hleaf _ _ _ (by decide) m hm hrest c hc
    · rw [List.mem_singleton.1 hmem] at hm
      cases hm with
      | self =>
        cases hc
        exact fun hcomment => absurd hcomment.1 (by decide)
      | element hkind => simp [Node.branch] at hkind
      | value hkind => cases hkind
      | left hkind => simp [Node.branch] at hkind
      | operand _ ho hm =>
        cases ho
        exact hleaf _ _ _ (by decide) m hm hrest c hc
  | value hkind => cases hkind
  | left hkind => simp [remarkedTree, Node.branch] at hkind
  | operand hkind => cases hkind

theorem bindInto_remarkedTree :
    Commented spreadTree remarkedTree ∧ OperandsFirst remarkedTree ∧
      bindInto ["z"] remarkedTree = bindInto ["z"] spreadTree :=
  ⟨commented_remarkedTree, operandsFirst_remarkedTree,
    (commented_remarkedTree.bindInto_sublist ["z"]).2 operandsFirst_remarkedTree⟩

open BindingTarget in
/-- Behind the dots, a comment hides the name. -/
theorem comment_hides_operand :
    (BindingTarget.array [.rest (.identifier ⟨"a", a_ne_empty⟩)]).IsTree spreadTree ∧
      Commented spreadTree hiddenTree ∧ bindInto [] spreadTree = ["a"] ∧
      bindInto [] hiddenTree = [] := by
  refine ⟨?_, ?_, rfl, rfl⟩
  · exact .array rfl (.cons (.rest rfl (show _ = [markAt 2 "..."] ++ [_] from rfl)
      (areMarks_markAt 2 "...") (isTree_nameAt 5 _)) .nil)
  · exact .node rfl rfl rfl (.keep (.node rfl rfl rfl (.keep (commented_leaf _ _ _ _)
      (.insert (isComment_remark 5) (.keep (commented_leaf _ _ _ _) .nil)))) .nil)

end ScriptInventory.Declaration
