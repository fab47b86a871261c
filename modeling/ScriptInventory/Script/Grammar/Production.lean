import ScriptInventory.Script.Grammar.Rules

/-!
# Productions

The rules as numbered productions. Repetitions become parts of their own, which
are two of themselves or one piece, equal repetitions being one part; parts that
are put in their place vanish; and terminals and constructs become numbers.
-/

namespace ScriptInventory.Script.Grammar

/-! ## Repetitions -/

mutual

/-- Replaces the repetitions in a rule by parts, the inner ones first. The bodies
of the repetitions known so far are in `known`. -/
def Rule.nameRepetitions (known : Array Rule) : Rule → Array Rule × Rule
  | .blank => (known, .blank)
  | .symbol s => (known, .symbol s)
  | .seq parts =>
    let (known, parts) := Rule.nameAll known parts
    (known, .seq parts)
  | .choice parts =>
    let (known, parts) := Rule.nameAll known parts
    (known, .choice parts)
  | .many body =>
    let (known, body) := body.nameRepetitions known
    match known.findIdx? (· == body) with
    | some i => (known, Rule.part (.repetition i))
    | none => (known.push body, Rule.part (.repetition known.size))
  | .binds level grouping body =>
    let (known, body) := body.nameRepetitions known
    (known, .binds level grouping body)
  | .weighs weight body =>
    let (known, body) := body.nameRepetitions known
    (known, .weighs weight body)
  | .plays role body =>
    let (known, body) := body.nameRepetitions known
    (known, .plays role body)
  | .renames kind body =>
    let (known, body) := body.nameRepetitions known
    (known, .renames kind body)

/-- Replaces the repetitions in several rules. -/
def Rule.nameAll (known : Array Rule) : List Rule → Array Rule × List Rule
  | [] => (known, [])
  | r :: rest =>
    let (known, r) := r.nameRepetitions known
    let (known, rest) := Rule.nameAll known rest
    (known, r :: rest)

end

/-- All rules without repetitions, and behind them the rules of the repetitions:
two of the same, or one body. -/
def plainRules (rules : List (Construct × Rule)) : List (Construct × Rule) :=
  let (known, bodies) := Rule.nameAll #[] (rules.map Prod.snd)
  let repetitions := known.toList.mapIdx fun i body =>
    let self := Rule.part (.repetition i)
    (Construct.part (.repetition i), Rule.choice [.seq [self, self], body])
  (rules.map Prod.fst).zip bodies ++ repetitions

/-! ## Parts in their place -/

/-- Keeps the first of equal elements. -/
def firsts {α : Type} [BEq α] (xs : List α) : List α :=
  xs.foldl (fun seen x => if seen.contains x then seen else seen ++ [x]) []

/-- Puts the sequence `inner` in the place of a step: the step's new name and role
go to all of it, its level to the end of it. -/
def Step.replaceBy (s : Step) (inner : List Step) : List Step :=
  let inner := inner.map fun i =>
    { i with renamed := i.renamed.or s.renamed, role := s.role.or i.role }
  inner |> onLast fun i =>
    { i with level := i.level.or s.level, grouping := i.grouping.or s.grouping }

/-- The sequences that one gets by putting parts in their place; `depth` bounds
how deep parts stand in parts. -/
def Sequence.inlined (sequencesOf : Part → List Sequence) : Nat → Sequence → List Sequence
  | 0, q => [q]
  | depth + 1, q =>
    q.steps.foldl (fun built s =>
      let pieces : List Sequence :=
        match s.symbol with
        | .construct (.part p) =>
          if p.isInline then
            ((sequencesOf p).flatMap (Sequence.inlined sequencesOf depth)).map fun i =>
              ⟨s.replaceBy i.steps, i.weight⟩
          else [⟨[s], 0⟩]
        | _ => [⟨[s], 0⟩]
      built.flatMap fun b => pieces.map fun i =>
        ⟨b.steps ++ i.steps, heavier b.weight i.weight⟩)
      [⟨[], q.weight⟩]

/-! ## Numbers -/

/-- A symbol by its number. -/
inductive Sym where
  | terminal (index : Nat)
  | construct (index : Nat)
deriving DecidableEq, Repr, Inhabited, Hashable

/-- A step of a production. -/
structure Slot where
  symbol : Sym
  level : Option Level
  grouping : Option Grouping
  renamed : Option Kind
  role : Option Role
deriving DecidableEq, Repr, Inhabited

/-- A production: the construct on its left, the steps on its right. -/
structure Production where
  construct : Nat
  slots : Array Slot
  weight : Int
deriving DecidableEq, Repr, Inhabited

/-- A grammar in numbers. -/
structure Numbered where
  terminals : Array Terminal
  constructs : Array Construct
  productions : Array Production
deriving Repr, Inhabited

/-- The grammar of `rules` in numbers; its start is the first construct. -/
def Numbered.ofRules (terminals : List Terminal) (rules : List (Construct × Rule)) :
    Numbered :=
  let rules := (plainRules rules).map fun (c, r) =>
    (c, firsts (r.alternatives {} true))
  let sequencesOf (p : Part) : List Sequence :=
    ((rules.find? fun (c, _) => c = .part p).map Prod.snd).getD []
  let rules := (rules.filter fun (c, _) =>
      match c with
      | .part p => !p.isInline
      | .node _ => true).map fun (c, qs) =>
    (c, firsts (qs.flatMap (Sequence.inlined sequencesOf 4)))
  let terminals := terminals.toArray
  let constructs := (rules.map Prod.fst).toArray
  let number : Symbol → Sym
    | .terminal t => .terminal (terminals.idxOf t)
    | .construct c => .construct (constructs.idxOf c)
  let slot (s : Step) : Slot :=
    ⟨number s.symbol, s.level, s.grouping, s.renamed, s.role⟩
  let productions := rules.flatMap fun (c, qs) => qs.map fun q =>
    (⟨constructs.idxOf c, (q.steps.map slot).toArray, q.weight⟩ : Production)
  ⟨terminals, constructs, productions.toArray⟩

end ScriptInventory.Script.Grammar
