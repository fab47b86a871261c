import ScriptInventory.Proofs.Canonical.Patterns

/-!
# Declarations of canonical programs

The whole way from the text of a canonical program to its inventory. Main statement:
every such text is a script, and its inventory has what the program declares
(`structural_textOf`).

* `Statement.reads` and `Member.reads`: the reader of plain scripts takes the tokens of a
  declaration and gives a node that declares the same names.
* `structural_textOf` puts this together with the tokens of a program and the walk.
-/

namespace ScriptInventory.Canonical

open Script Declaration Plain

/-! ## Names -/

theorem Name.isNamePart (n : Name) : ∀ c ∈ n.text.toList, isNamePart c := by
  have hname := n.isName
  cases htext : n.text.toList with
  | nil => simp
  | cons c rest =>
    rw [htext, Canonical.isName, Bool.and_eq_true, List.all_eq_true] at hname
    intro d hd
    rcases List.mem_cons.1 hd with rfl | hd
    · rw [Canonical.isNamePart, hname.1, Bool.true_or]
    · exact hname.2 d hd

/-- No white space is taken off a name. -/
theorem Name.trim (n : Name) : Text.trim n.text.toList = n.text.toList := by
  have hdrop : ∀ text : List Char, (∀ c ∈ text, Canonical.isNamePart c) →
      text.dropWhile Text.isWhiteSpace = text := by
    intro text htext
    cases text with
    | nil => rfl
    | cons c rest =>
      rw [List.dropWhile_cons_of_neg]
      rw [isWhiteSpace_of_isPlain (isPlain_of_isNamePart (htext c List.mem_cons_self))]
      exact Bool.false_ne_true
  rw [Text.trim, hdrop _ n.isNamePart, hdrop _ fun c hc => n.isNamePart c (List.mem_reverse.1 hc),
    List.reverse_reverse]

theorem Name.nonempty (n : Name) : nonempty n.text = [n.text] := by
  rw [Declaration.nonempty, n.text_isEmpty]
  rfl

theorem Name.declaredName (n : Name) {node name : Node} (hname : node.child? .name = some name)
    (htext : name.text = n.text) : declaredName node = [n.text] := by
  rw [Declaration.declaredName, hname]
  simp only [htext]
  rw [n.trim, String.ofList_toList, n.nonempty]

/-! ## Statements and members -/

/-- What is behind declarations: nothing, or a closing brace. -/
def Closes (rest : List Token) : Prop :=
  rest = [] ∨ ∃ p l after, rest = ⟨.sign '}', p, l⟩ :: after

/-- A statement is read as a node that declares its names. -/
def Statement.IsRead (s : Statement) : Prop :=
  ∀ (fuel : Nat) (seen : List Node) (ts rest : List Token),
    Spells ts (forms s.pieces) → 2 * ts.length ≤ fuel →
    ∃ node, statements? (fuel + 1) seen (ts ++ rest) = statements? fuel (node :: seen) rest ∧
      ∀ k parent, declaredBelow k parent node = s.declared k

/-- Statements are read, up to the end or a closing brace. -/
def Statement.AreRead (ss : List Statement) : Prop :=
  ∀ (fuel : Nat) (seen : List Node) (ts rest : List Token),
    Spells ts (forms (Statement.piecesAll ss)) → Closes rest → 2 * ts.length + 1 ≤ fuel →
    ∃ nodes, statements? fuel seen (ts ++ rest) = some (seen.reverse ++ nodes, rest) ∧
      ∀ k parent, declaredBelowAll k parent nodes = Statement.declaredAll k ss

/-- A member is read as a node that declares its names in the body of a class. -/
def Member.IsRead (m : Member) : Prop :=
  ∀ (fuel : Nat) (seen : List Node) (ts rest : List Token),
    Spells ts (forms m.pieces) → 2 * ts.length ≤ fuel →
    ∃ node, members? (fuel + 1) seen (ts ++ rest) = members? fuel (node :: seen) rest ∧
      ∀ k, declaredBelow k (some .classBody) node = m.declared k

/-- Members are read, up to the closing brace. -/
def Member.AreRead (ms : List Member) : Prop :=
  ∀ (fuel : Nat) (seen : List Node) (ts : List Token) (p : Place) (l : Bool) (rest : List Token),
    Spells ts (forms (Member.piecesAll ms)) → 2 * ts.length + 1 ≤ fuel →
    ∃ nodes, members? fuel seen (ts ++ ⟨.sign '}', p, l⟩ :: rest) =
      some (seen.reverse ++ nodes, rest) ∧
      ∀ k, declaredBelowAll k .classBody nodes = Member.declaredAll k ms

@[simp] theorem forms_between_blank {α : Type} (more : List α) :
    forms (between [.blank] more) = [] := by
  cases more <;> rfl

theorem declaredBelowAll_cons (k : SymbolKind) (parent : Kind) (n : Node) (ns : List Node) :
    declaredBelowAll k parent (n :: ns) =
      declaredBelow k (some parent) n ++ declaredBelowAll k parent ns := by
  rw [declaredBelowAll]

/-- What a node of some shape declares, and what is below it. -/
theorem declaredBelow_branch {k : SymbolKind} {parent : Option Kind} {kind : Kind}
    {place : Place} {children : List Node} {shape : Shape}
    (h : Shape.classify parent (.branch kind place children) = some shape) :
    declaredBelow k parent (.branch kind place children) =
      ofKind shape.kind k (names shape (.branch kind place children)) ++
        declaredBelowAll k kind children := by
  rw [declaredBelow_eq, declaredAt, h]
  rfl

theorem declaredBelow_branch_none {k : SymbolKind} {parent : Option Kind} {kind : Kind}
    {place : Place} {children : List Node}
    (h : Shape.classify parent (.branch kind place children) = none) :
    declaredBelow k parent (.branch kind place children) = declaredBelowAll k kind children := by
  rw [declaredBelow_eq, declaredAt, h]
  rfl

/-! ## Variables -/

theorem declarators?_reads (t : Target) {fuel : Nat} {ts : List Token}
    (hts : Spells ts (forms t.pieces)) (hfuel : 2 * ts.length ≤ fuel) (p q r : Place)
    (rest : List Token) :
    ∃ node, declarators? (fuel + 1) [] (ts ++ ⟨.sign '=', p, false⟩ ::
        ⟨.number "1", q, false⟩ :: ⟨.sign ';', r, false⟩ :: rest) = some ([node], rest) ∧
      ∀ k parent, declaredBelow k parent node = ofKind .variable k t.bound := by
  obtain ⟨target, htarget, hbinds, -⟩ := t.reads fuel ts (⟨.sign '=', p, false⟩ ::
    ⟨.number "1", q, false⟩ :: ⟨.sign ';', r, false⟩ :: rest) hts hfuel
  refine ⟨.branch .variableDeclarator target.start
    [target.withRole .name, (Node.leaf .number q "1").withRole .value], ?_, ?_⟩
  · simp [declarators?, declarator?, htarget, initial?, value?, ending?]
  · intro k parent
    have hsilent : ∀ n ∈ [target.withRole .name, (Node.leaf .number q "1").withRole .value],
        Silent n := by
      simp only [List.mem_cons, List.not_mem_nil, or_false, forall_eq_or_imp, forall_eq]
      exact ⟨hbinds.silent.withRole .name,
        (silent_leaf q "1" fun _ => rfl).withRole .value⟩
    have hshape : Shape.classify parent (.branch .variableDeclarator target.start
        [target.withRole .name, (Node.leaf .number q "1").withRole .value]) = some .variable := rfl
    rw [declaredBelow_branch hshape, declaredBelowAll_of_silent k _ hsilent, names, boundByChild_eq,
      Node.branch, boundByRole_withRole, hbinds.bound, List.append_nil]
    rfl

theorem Statement.isRead_variable (b : Binder) (target : Target) :
    (Statement.variable b target).IsRead := by
  intro fuel seen ts rest hts hfuel
  have hforms : forms (Statement.variable b target).pieces =
      .opener b.opener :: (forms target.pieces ++ [.sign '=', .number "1", .sign ';']) := by
    simp [Statement.pieces, Piece.form?]
  rw [hforms] at hts
  obtain ⟨p, _, rfl, hbehind⟩ := spells_cons.1 hts
  obtain ⟨inner, _, rfl, hinner, hvalue⟩ := spells_append.1 hbehind
  obtain ⟨q, _, rfl, hone⟩ := spells_cons.1 hvalue
  obtain ⟨q₁, _, rfl, hend⟩ := spells_cons.1 hone
  obtain ⟨q₂, rfl⟩ := spells_singleton.1 hend
  simp only [List.length_cons, List.length_append] at hfuel
  obtain ⟨fuel, rfl⟩ : ∃ m, fuel = m + 1 := ⟨fuel - 1, by omega⟩
  obtain ⟨node, hnode, hdeclared⟩ :=
    declarators?_reads target hinner (by omega : _ ≤ fuel) q q₁ q₂ rest
  -- `let` opens a declaration only if no line ends behind it
  have hline : opensLine (inner ++ ⟨.sign '=', q, false⟩ ::
      ⟨.number "1", q₁, false⟩ :: ⟨.sign ';', q₂, false⟩ :: rest) = false := by
    obtain ⟨f, fs, hcons, -⟩ := target.forms_eq_cons
    rw [hcons] at hinner
    obtain ⟨q₃, more, rfl, -⟩ := spells_cons.1 hinner
    rfl
  have hbelow : ∀ kind, (∀ parent, Shape.classify parent (.branch kind p [node]) = none) →
      ∀ k parent, declaredBelow k parent (.branch kind p [node]) =
        (Statement.variable b target).declared k := by
    intro kind hkind k parent
    rw [declaredBelow_branch_none (hkind parent), declaredBelowAll_cons, hdeclared,
      declaredBelowAll, List.append_nil, Statement.declared]
  cases b with
  | var =>
    refine ⟨.branch .variableDeclaration p [node], ?_, hbelow _ fun _ => rfl⟩
    simp only [Binder.opener, List.cons_append, List.append_assoc, List.nil_append]
    rw [statements?, hnode]
  | const =>
    refine ⟨.branch .lexicalDeclaration p [node], ?_, hbelow _ fun _ => rfl⟩
    simp only [Binder.opener, List.cons_append, List.append_assoc, List.nil_append]
    rw [statements?, hnode]
  | «let» =>
    refine ⟨.branch .lexicalDeclaration p [node], ?_, hbelow _ fun _ => rfl⟩
    simp only [Binder.opener, List.cons_append, List.append_assoc, List.nil_append]
    rw [statements?, hline, hnode]
    rfl

/-! ## Functions and classes -/

/-- The nodes of a body declare what its statements declare. -/
theorem declaredBelowAll_body {body : List Node} (k : SymbolKind) (parent : Kind) (p q : Place)
    {names : List String} (hbody : declaredBelowAll k .statementBlock body = names) :
    declaredBelowAll k parent
      [.branch .formalParameters p [], .branch .statementBlock q body] = names := by
  have hsilent : Silent (.branch .formalParameters p []) := by
    apply silent_of_children fun _ => rfl
    intro c hc
    cases hc
  have hblock : declaredBelow k (some parent) (.branch .statementBlock q body) = names := by
    rw [declaredBelow_branch_none rfl, hbody]
  rw [declaredBelowAll_cons, declaredBelowAll_cons, hsilent, hblock, declaredBelowAll,
    List.nil_append, List.append_nil]

/-- The forms of the parameters and the body of a function or a method. -/
def bodyForms (body : List Statement) : List Form :=
  .sign '(' :: .sign ')' :: .sign '{' :: (forms (Statement.piecesAll body) ++ [.sign '}'])

/-- Parameters and a body are read, up to the closing brace. -/
theorem body_reads {body : List Statement} (hbody : Statement.AreRead body) {fuel : Nat}
    {ts : List Token} (hts : Spells ts (bodyForms body)) (hfuel : 2 * ts.length ≤ fuel)
    (rest : List Token) :
    ∃ p ts' nodes inner block q, ts = ⟨.sign '(', p, false⟩ :: ts' ∧
      head? (⟨.sign '(', p, false⟩ :: (ts' ++ rest)) = some (nodes, inner) ∧
      statements? fuel [] inner = some (block, ⟨.sign '}', q, false⟩ :: rest) ∧
      ∀ k parent, declaredBelowAll k parent (nodes block) = Statement.declaredAll k body := by
  rw [bodyForms] at hts
  obtain ⟨p, _, rfl, hclose⟩ := spells_cons.1 hts
  obtain ⟨p₁, _, rfl, hbrace⟩ := spells_cons.1 hclose
  obtain ⟨p₂, _, rfl, hinside⟩ := spells_cons.1 hbrace
  obtain ⟨inner, _, rfl, hinner, hend⟩ := spells_append.1 hinside
  obtain ⟨q, rfl⟩ := spells_singleton.1 hend
  simp only [List.length_cons, List.length_append] at hfuel
  obtain ⟨block, hblock, hdeclared⟩ := hbody fuel [] inner (⟨.sign '}', q, false⟩ :: rest) hinner
    (.inr ⟨_, _, _, rfl⟩) (by omega)
  refine ⟨p, _, fun block => [.branch .formalParameters p [], .branch .statementBlock p₂ block],
    inner ++ ⟨.sign '}', q, false⟩ :: rest, block, q, rfl, ?_, hblock, ?_⟩
  · simp only [List.cons_append, List.append_assoc, List.nil_append]
    rw [head?]
  · intro k parent
    exact declaredBelowAll_body k parent p p₂ (hdeclared k .statementBlock)

theorem Statement.isRead_function (n : Name) {body : List Statement}
    (hbody : Statement.AreRead body) : (Statement.function n body).IsRead := by
  intro fuel seen ts rest hts hfuel
  have hforms : forms (Statement.function n body).pieces =
      .opener .function :: .name n.text :: bodyForms body := by
    simp [Statement.pieces, bodyForms, Piece.form?]
  rw [hforms] at hts
  obtain ⟨p, _, rfl, hname⟩ := spells_cons.1 hts
  obtain ⟨q, _, rfl, hbehind⟩ := spells_cons.1 hname
  simp only [List.length_cons] at hfuel
  obtain ⟨q₁, ts, nodes, inner, block, q₂, rfl, hhead, hblock, hdeclared⟩ :=
    body_reads hbody hbehind (by omega : _ ≤ fuel) rest
  refine ⟨.branch .functionDeclaration p
    ((Node.leaf .identifier q n.text).withRole .name :: nodes block), ?_, ?_⟩
  · simp only [List.cons_append]
    rw [statements?, hhead]
    simp only [hblock]
  · intro k parent
    have hshape : Shape.classify parent (.branch .functionDeclaration p
        ((Node.leaf .identifier q n.text).withRole .name :: nodes block)) = some .function := rfl
    rw [declaredBelow_branch hshape, names, n.declaredName rfl rfl, declaredBelowAll_cons,
      declaredBelow_withRole, silent_leaf q n.text (fun _ => rfl), hdeclared]
    rfl

theorem Statement.isRead_class (n : Name) {members : List Member}
    (hmembers : Member.AreRead members) : (Statement.class n members).IsRead := by
  intro fuel seen ts rest hts hfuel
  have hforms : forms (Statement.class n members).pieces =
      .opener .class :: .name n.text :: .sign '{' ::
        (forms (Member.piecesAll members) ++ [.sign '}']) := by
    simp [Statement.pieces, Piece.form?]
  rw [hforms] at hts
  -- the tokens, piece by piece
  obtain ⟨p, _, rfl, hname⟩ := spells_cons.1 hts
  obtain ⟨q, _, rfl, hbrace⟩ := spells_cons.1 hname
  obtain ⟨q₁, _, rfl, hinside⟩ := spells_cons.1 hbrace
  obtain ⟨inner, _, rfl, hinner, hend⟩ := spells_append.1 hinside
  obtain ⟨q₂, rfl⟩ := spells_singleton.1 hend
  simp only [List.length_cons, List.length_append] at hfuel
  -- the members are read up to the closing brace, which ends the class
  obtain ⟨nodes, hnodes, hdeclared⟩ := hmembers fuel [] inner q₂ false rest hinner (by omega)
  refine ⟨.branch .classDeclaration p [(Node.leaf .identifier q n.text).withRole .name,
    .branch .classBody q₁ nodes], ?_, ?_⟩
  · simp only [List.cons_append, List.append_assoc, List.nil_append]
    rw [statements?]
    simp only [hnodes, List.reverse_nil, List.nil_append]
  · intro k parent
    have hshape : Shape.classify parent (.branch .classDeclaration p
        [(Node.leaf .identifier q n.text).withRole .name, .branch .classBody q₁ nodes]) =
        some .class := rfl
    have hbody : declaredBelow k (some .classDeclaration) (.branch .classBody q₁ nodes) =
        Member.declaredAll k members := by
      rw [declaredBelow_branch_none rfl, hdeclared]
    rw [declaredBelow_branch hshape, names, n.declaredName rfl rfl, declaredBelowAll_cons,
      declaredBelow_withRole, silent_leaf q n.text (fun _ => rfl),
      declaredBelowAll_cons, hbody, declaredBelowAll, List.nil_append, List.append_nil]
    rfl

/-! ## Members -/

theorem Name.memberName (n : Name) {node key : Node} {role : Role}
    (hkey : node.child? role = some key) (hkind : key.kind = .propertyIdentifier)
    (htext : key.text = n.text) : memberName node role = [n.text] := by
  rw [Declaration.memberName, hkey]
  simp only [keyName, hkind, htext, n.nonempty]

theorem Member.isRead_method (n : Name) {body : List Statement}
    (hbody : Statement.AreRead body) : (Member.method n body).IsRead := by
  intro fuel seen ts rest hts hfuel
  have hforms : forms (Member.method n body).pieces = .name n.text :: bodyForms body := by
    simp [Member.pieces, bodyForms, Piece.form?]
  rw [hforms] at hts
  obtain ⟨q, _, rfl, hbehind⟩ := spells_cons.1 hts
  simp only [List.length_cons] at hfuel
  obtain ⟨q₁, ts, nodes, inner, block, q₂, rfl, hhead, hblock, hdeclared⟩ :=
    body_reads hbody hbehind (by omega : _ ≤ fuel) rest
  refine ⟨.branch .methodDefinition q
    ((Node.leaf .propertyIdentifier q n.text).withRole .name :: nodes block), ?_, ?_⟩
  · simp only [List.cons_append]
    rw [members?]
    · simp only [key?, hhead, hblock]
      rfl
    · simp
  · intro k
    have hshape : Shape.classify (some .classBody) (.branch .methodDefinition q
        ((Node.leaf .propertyIdentifier q n.text).withRole .name :: nodes block)) =
        some .method := rfl
    rw [declaredBelow_branch hshape, names, n.memberName rfl rfl rfl, declaredBelowAll_cons,
      declaredBelow_withRole, silent_leaf q n.text (fun _ => rfl), hdeclared]
    rfl

theorem Member.isRead_field (n : Name) : (Member.field n).IsRead := by
  intro fuel seen ts rest hts hfuel
  have hforms : forms (Member.field n).pieces =
      [.name n.text, .sign '=', .number "1", .sign ';'] := by
    simp [Member.pieces, Piece.form?]
  rw [hforms] at hts
  obtain ⟨q, _, rfl, hequals⟩ := spells_cons.1 hts
  obtain ⟨q₁, _, rfl, hvalue⟩ := spells_cons.1 hequals
  obtain ⟨q₂, _, rfl, hend⟩ := spells_cons.1 hvalue
  obtain ⟨q₃, rfl⟩ := spells_singleton.1 hend
  refine ⟨.branch .fieldDefinition q [(Node.leaf .propertyIdentifier q n.text).withRole .property,
    (Node.leaf .number q₂ "1").withRole .value], ?_, ?_⟩
  · simp only [List.cons_append, List.nil_append]
    rw [members?]
    · simp [key?, field?, initial?, value?, fieldEnding?]
      rfl
    · simp
  · intro k
    have hshape : Shape.classify (some .classBody) (.branch .fieldDefinition q
        [(Node.leaf .propertyIdentifier q n.text).withRole .property,
          (Node.leaf .number q₂ "1").withRole .value]) = some .property := rfl
    rw [declaredBelow_branch hshape, names, n.memberName rfl rfl rfl, declaredBelowAll_cons,
      declaredBelow_withRole, silent_leaf q n.text (fun _ => rfl), declaredBelowAll_cons,
      declaredBelow_withRole, silent_leaf q₂ "1" (fun _ => rfl), declaredBelowAll]
    simp [Member.declared, Shape.kind]

/-! ## Sequences -/

theorem Statement.length_pos (s : Statement) {ts : List Token}
    (hts : Spells ts (forms s.pieces)) : 0 < ts.length := by
  rw [hts.length_eq]
  cases s <;> simp [Statement.pieces, Piece.form?]

theorem Member.length_pos (m : Member) {ts : List Token} (hts : Spells ts (forms m.pieces)) :
    0 < ts.length := by
  rw [hts.length_eq]
  cases m <;> simp [Member.pieces, Piece.form?]

theorem Statement.areRead_nil : Statement.AreRead [] := by
  intro fuel seen ts rest hts hcloses hfuel
  obtain rfl : ts = [] := spells_nil.1 hts
  cases fuel with
  | zero => simp at hfuel
  | succ fuel =>
    refine ⟨[], ?_, fun k parent => by rw [declaredBelowAll, Statement.declaredAll]⟩
    rcases hcloses with rfl | ⟨p, l, after, rfl⟩
    · rw [List.nil_append, statements?, List.append_nil]
    · rw [List.nil_append, statements?, List.append_nil]

theorem Statement.areRead_cons {s : Statement} {more : List Statement} (hs : s.IsRead)
    (hmore : Statement.AreRead more) : Statement.AreRead (s :: more) := by
  intro fuel seen ts rest hts hcloses hfuel
  rw [Statement.piecesAll, forms_append, forms_append, forms_between_blank, List.append_nil] at hts
  obtain ⟨front, tail, rfl, hfront, htail⟩ := spells_append.1 hts
  rw [List.length_append] at hfuel
  have hsome : 0 < front.length := s.length_pos hfront
  obtain ⟨fuel, rfl⟩ : ∃ m, fuel = m + 1 := ⟨fuel - 1, by omega⟩
  obtain ⟨node, hnode, hdeclared⟩ := hs fuel seen front (tail ++ rest) hfront (by omega)
  obtain ⟨nodes, hnodes, hall⟩ := hmore fuel (node :: seen) tail rest htail hcloses (by omega)
  refine ⟨node :: nodes, ?_, ?_⟩
  · rw [List.append_assoc, hnode, hnodes, List.reverse_cons, List.append_assoc,
      List.singleton_append]
  · intro k parent
    rw [declaredBelowAll_cons, hdeclared, hall, Statement.declaredAll]

theorem Member.areRead_nil : Member.AreRead [] := by
  intro fuel seen ts p l rest hts hfuel
  obtain rfl : ts = [] := spells_nil.1 hts
  cases fuel with
  | zero => simp at hfuel
  | succ fuel =>
    refine ⟨[], ?_, fun k => by rw [declaredBelowAll, Member.declaredAll]⟩
    rw [List.nil_append, members?, List.append_nil]

theorem Member.areRead_cons {m : Member} {more : List Member} (hm : m.IsRead)
    (hmore : Member.AreRead more) : Member.AreRead (m :: more) := by
  intro fuel seen ts p l rest hts hfuel
  rw [Member.piecesAll, forms_append, forms_append, forms_between_blank, List.append_nil] at hts
  obtain ⟨front, tail, rfl, hfront, htail⟩ := spells_append.1 hts
  rw [List.length_append] at hfuel
  have hsome : 0 < front.length := m.length_pos hfront
  obtain ⟨fuel, rfl⟩ : ∃ m, fuel = m + 1 := ⟨fuel - 1, by omega⟩
  obtain ⟨node, hnode, hdeclared⟩ := hm fuel seen front (tail ++ ⟨.sign '}', p, l⟩ :: rest) hfront
    (by omega)
  obtain ⟨nodes, hnodes, hall⟩ := hmore fuel (node :: seen) tail p l rest htail (by omega)
  refine ⟨node :: nodes, ?_, ?_⟩
  · rw [List.append_assoc, hnode, hnodes, List.reverse_cons, List.append_assoc,
      List.singleton_append]
  · intro k
    rw [declaredBelowAll_cons, hdeclared, hall, Member.declaredAll]

-- Induction on the trees: a body is read before what stands behind it.

mutual

/-- Every statement is read as a node that declares its names. -/
theorem Statement.reads : ∀ s : Statement, s.IsRead
  | .class n members => Statement.isRead_class n (Member.readsAll members)
  | .function n body => Statement.isRead_function n (Statement.readsAll body)
  | .variable b target => Statement.isRead_variable b target

theorem Statement.readsAll : ∀ ss : List Statement, Statement.AreRead ss
  | [] => Statement.areRead_nil
  | s :: more => Statement.areRead_cons s.reads (Statement.readsAll more)

/-- Every member is read as a node that declares its names. -/
theorem Member.reads : ∀ m : Member, m.IsRead
  | .method n body => Member.isRead_method n (Statement.readsAll body)
  | .field n => Member.isRead_field n

theorem Member.readsAll : ∀ ms : List Member, Member.AreRead ms
  | [] => Member.areRead_nil
  | m :: more => Member.areRead_cons m.reads (Member.readsAll more)

end

/-! ## Whole programs -/

/-- The tree of a program declares what the program declares. -/
theorem tree_textOf (program : List Statement) :
    ∃ place nodes, tree (textOf program) = .branch .program place nodes ∧
      ∀ k, declaredBelowAll k .program nodes = Statement.declaredAll k program := by
  obtain ⟨ts, htokens, hts⟩ := tokens?_textOf program
  obtain ⟨nodes, hnodes, hdeclared⟩ := Statement.readsAll program (2 * ts.length + 2) [] ts []
    hts (.inl rfl) (by omega)
  rw [List.append_nil, List.reverse_nil, List.nil_append] at hnodes
  refine ⟨(ts.head?.map Token.place).getD .start, nodes, ?_, fun k => hdeclared k .program⟩
  rw [tree, read?, htokens, Option.bind_some]
  simp only [hnodes]

/-- **Canonical programs.** The text of every program is a script, and its inventory has
the names of each kind that the program declares, in the order of the text and each
where it first occurs. -/
theorem structural_textOf (source : SourceUnit) (program : List Statement) :
    ∃ inventory, structural source (textOf program) = .ok inventory ∧
      inventory.source = source ∧
      ∀ k, (inventory.names k).toList =
        firstOccurrences (Statement.declaredAll k program) := by
  obtain ⟨place, nodes, htree, hdeclared⟩ := tree_textOf program
  refine ⟨collectTree (.branch .program place nodes) (.empty source), ?_, ?_, ?_⟩
  · rw [structural, parse, htree]
    rfl
  · rw [collectTree_eq_collectBelow, source_collectBelow]
    rfl
  · intro k
    have hempty : ((Inventory.empty source).names k).toList = [] := by
      cases k <;> rfl
    rw [toList_collectTree, hempty, List.nil_append, declaredBelow_branch_none rfl, hdeclared]

/-- How programs are printed. -/
example :
    let name (text : String) (h : isName text.toList ∧ text ∉ fixedTexts) : Name :=
      ⟨text, h.1, h.2⟩
    let a := name "a" (by decide +kernel)
    let b := name "b" (by decide +kernel)
    textOf [
        .class a [.method b [.variable .let (.array [.hole, .item (.name a) true])], .field a],
        .variable .const (.object [.renamed a (.name b) false, .shorthand a true])] =
      "class a \x7b b() \x7b let [, a = 1] = 1; \x7d a = 1; \x7d " ++
        "const \x7b a: b, a = 1 \x7d = 1;" := by
  decide +kernel

end ScriptInventory.Canonical
