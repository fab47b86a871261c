import Mathlib
import ScriptInventory.Proofs.Grammar.Automaton
import ScriptInventory.Proofs.Tolerant.Text
import ScriptInventory.Script.Tolerant.Reduce

/-!
# Sound trees

A tree is sound if it follows the grammar: its leaves are terminals that stand in the text,
and its inner trees fill the steps of productions and stand side by side (`Tree.Sound`).

`Crosses` says what is known of a tree that leads from one state and position to another
one: what it costs, that the automaton goes there over it, and that it is sound where
nothing so far is damaged. `Way` puts such trees one behind the other. The main statement is
`Way.holds`: a way into a state that is not damage is one that the automaton takes, and an
undamaged one is made of sound trees that cover the text between its ends.
-/

namespace ScriptInventory.Script.Tolerant

open Grammar

variable {x : Context}

/-! ## Sound trees -/

/-- The symbol that a label stands for. -/
def Label.sym? : Label → Option Sym
  | .terminal n => some (.terminal n)
  | .construct n => some (.construct n)
  | .error | .swallowed => none

/-- The trees that fill steps of a production, in a list with extra trees. -/
def filling (trees : List Tree) : List Tree := trees.filter fun t => !t.extra

/-- Trees that stand side by side between two positions. -/
def Abreast (i : Nat) : List Tree → Nat → Prop
  | [], j => i = j
  | t :: rest, j => t.reach = i ∧ Abreast t.stop rest j

/-- A leaf is a terminal that stands in the text. -/
structure Tree.IsLeaf (x : Context) (t : Tree) (n : Nat) (terminal : Terminal) : Prop where
  label : t.label = .terminal n
  found : x.terminals[n]? = some terminal
  children : t.children = []
  visible : t.visible = terminal.kind?.isSome
  missing : t.missing = false
  shows : x.text.Shows terminal t.reach t.start t.stop
  extra : t.extra → terminal.isExtra

/-- An inner tree fills a production. It may be noted under another production, for the same
construct and with the same names and roles. -/
structure Tree.IsBranch (x : Context) (t : Tree) (c : Nat) (noted filled : Production) :
    Prop where
  label : t.label = .construct c
  production : t.production.bind (fun p => x.automaton.grammar.productions[p]?) = some noted
  mem : filled ∈ x.automaton.grammar.productions
  construct : filled.construct = c
  names : filled.slots.toList.map (fun s => (s.renamed, s.role)) =
    noted.slots.toList.map fun s => (s.renamed, s.role)
  symbols : (filling t.children).map (fun u => u.label.sym?) =
    filled.slots.toList.map fun s => some s.symbol
  abreast : Abreast t.reach t.children t.stop
  visible : t.visible = t.label.isVisible x
  extra : t.extra = false
  missing : t.missing = false

/-- A tree that follows the grammar and the text. -/
inductive Tree.Sound (x : Context) : Tree → Prop
  | leaf {t : Tree} {n : Nat} {terminal : Terminal} (h : t.IsLeaf x n terminal) : Sound x t
  | branch {t : Tree} {c : Nat} {noted filled : Production} (h : t.IsBranch x c noted filled)
      (below : ∀ u ∈ t.children, Sound x u) : Sound x t

theorem Abreast.append {i j k : Nat} {a b : List Tree} (ha : Abreast i a j)
    (hb : Abreast j b k) : Abreast i (a ++ b) k := by
  induction a generalizing i with
  | nil =>
    obtain rfl : i = j := ha
    exact hb
  | cons t a ih => exact ⟨ha.1, ih ha.2⟩

theorem Abreast.split {i k : Nat} {a b : List Tree} (h : Abreast i (a ++ b) k) :
    ∃ j, Abreast i a j ∧ Abreast j b k := by
  induction a generalizing i with
  | nil => exact ⟨i, rfl, h⟩
  | cons t a ih =>
    obtain ⟨j, ha, hb⟩ := ih h.2
    exact ⟨j, ⟨h.1, ha⟩, hb⟩

theorem Abreast.le {i j : Nat} {trees : List Tree} (h : Abreast i trees j)
    (hle : ∀ t ∈ trees, t.reach ≤ t.stop) : i ≤ j := by
  induction trees generalizing i with
  | nil => exact Nat.le_of_eq h
  | cons t rest ih =>
    obtain ⟨ht, hrest⟩ := List.forall_mem_cons.1 hle
    exact h.1 ▸ Nat.le_trans ht (ih h.2 hrest)

/-- Where a list of trees starts and ends. -/
theorem Abreast.ends {i j : Nat} {trees : List Tree} (h : Abreast i trees j) :
    (trees.head?.map Tree.reach).getD i = i ∧ (trees.getLast?.map Tree.stop).getD i = j := by
  induction trees generalizing i with
  | nil => exact ⟨rfl, h⟩
  | cons t rest ih =>
    refine ⟨h.1, ?_⟩
    have hrest := (ih h.2).2
    cases rest with
    | nil => exact h.2
    | cons u rest =>
      rw [List.getLast?_cons_cons]
      obtain ⟨v, hv⟩ : ∃ v, (u :: rest).getLast? = some v :=
        Option.isSome_iff_exists.1 (by simp)
      rw [hv] at hrest ⊢
      exact hrest

/-- What is below a sound tree is sound. -/
theorem Tree.Sound.children {t : Tree} (h : t.Sound x) : ∀ u ∈ t.children, u.Sound x := by
  cases h with
  | leaf h =>
    intro u hu
    rw [h.children] at hu
    cases hu
  | branch _ below => exact below

/-- A sound tree does not end before it starts. -/
theorem Tree.Sound.reach_le {t : Tree} (h : t.Sound x) : t.reach ≤ t.stop := by
  induction h with
  | leaf h => exact Nat.le_trans h.shows.reach_le h.shows.start_le
  | branch h _ ih => exact h.abreast.le ih

/-- A finished reading that is undamaged: trees side by side from the start of the text to
its end, with the leading and trailing extra trees beside what is below the whole text. -/
structure IsRoot (x : Context) (root : Tree) : Prop where
  label : root.label = .construct 0
  production : root.production = none
  visible : root.visible = root.label.isVisible x
  missing : root.missing = false
  children : ∃ before inner after : List Tree, ∃ whole : Tree,
    root.children = before ++ inner ++ after ∧ whole.Sound x ∧ whole.label = .construct 0 ∧
      whole.children = inner ∧ (∀ t ∈ before ++ after, t.Sound x ∧ t.extra)
  abreast : ∃ stop, Abreast 0 root.children stop ∧ ∀ c ∈ x.text.rest stop, isBlank c

/-- A finished reading: it stands for a whole text or for an error, and where it is undamaged
it follows the grammar and covers the text. -/
structure IsFinished (x : Context) (root : Tree) : Prop where
  label : root.label = .construct 0 ∨ root.label = .error
  visible : root.visible = root.label.isVisible x
  isRoot : root.cost = 0 → IsRoot x root

/-! ## Costs -/

/-- What the trees below a tree cost it. -/
def belowCost (trees : List Tree) : Nat :=
  trees.foldl (fun n t => if t.label = .swallowed then n else n + t.cost) 0

theorem foldl_cost (trees : List Tree) (n : Nat)
    (h : ∀ t ∈ trees, t.label ≠ .swallowed) :
    trees.foldl (fun n t => if t.label = .swallowed then n else n + t.cost) n =
      n + (trees.map Tree.cost).sum := by
  induction trees generalizing n with
  | nil => rfl
  | cons t rest ih =>
    obtain ⟨ht, hrest⟩ := List.forall_mem_cons.1 h
    rw [List.foldl_cons, if_neg ht, ih _ hrest, List.map_cons, List.sum_cons, Nat.add_assoc]

theorem belowCost_eq_sum {trees : List Tree} (h : ∀ t ∈ trees, t.label ≠ .swallowed) :
    belowCost trees = (trees.map Tree.cost).sum := by
  rw [belowCost, foldl_cost trees 0 h, Nat.zero_add]

theorem belowCost_append (a b : List Tree) :
    belowCost (a ++ b) = belowCost a + belowCost b := by
  have hadd : ∀ (l : List Tree) (n : Nat),
      l.foldl (fun n t => if t.label = .swallowed then n else n + t.cost) n =
        n + l.foldl (fun n t => if t.label = .swallowed then n else n + t.cost) 0 := by
    intro l
    induction l with
    | nil => exact fun _ => rfl
    | cons t l ih =>
      intro n
      rw [List.foldl_cons, List.foldl_cons]
      by_cases h : t.label = .swallowed
      · rw [if_pos h, if_pos h, ih n]
      · rw [if_neg h, if_neg h, ih (n + t.cost), ih (0 + t.cost)]
        omega
  rw [belowCost, List.foldl_append, hadd]
  rfl

/-- What a tree with children costs. -/
theorem cost_branch (label : Label) (children : List Tree) (production : Option Nat)
    (position : Nat) :
    (Tree.branch x label children production position).cost =
      belowCost children + if label.isDamage then
        swallowedCost * children.foldl (fun n c => n + c.swallowedCount) 0 + recoveryCost +
          x.text.cost ((children.head?.map Tree.start).getD position)
            ((children.getLast?.map Tree.stop).getD position)
      else 0 := rfl

/-- Damage costs something. -/
theorem cost_branch_pos (label : Label) (h : label.isDamage) (children : List Tree)
    (production : Option Nat) (position : Nat) :
    0 < (Tree.branch x label children production position).cost := by
  rw [cost_branch, if_pos h]
  have : 0 < recoveryCost := by decide
  omega

/-! ## Crossing from one spot to another -/

/-- What a vertex stands for: a state at a position, behind damage of some cost. -/
structure Spot where
  state : Nat
  position : Nat
  damage : Nat

def Vertex.spot (v : Vertex) : Spot := ⟨v.state, v.position, v.damage⟩

/-- What is known of a tree that leads from one spot to another one. -/
structure Crosses (x : Context) (low up : Spot) (t : Tree) : Prop where
  damage : up.damage = low.damage + t.cost
  swallowed : t.label = .swallowed → up.state = 0 ∧ t.extra = false
  error : t.label = .error → ∃ c, t.children.getLast? = some c ∧ c.extra = false
  ends : t.extra → t.label ≠ .terminal 0
  extra : up.state ≠ 0 → t.extra → low.state = up.state
  goes : up.state ≠ 0 → t.extra = false →
    ∃ X, t.label.sym? = some X ∧ x.automaton.Goes low.state X up.state
  cost : ∀ c, t.label = .construct c → t.cost = belowCost t.children
  sound : up.damage = 0 → up.state ≠ 0 ∨ t.extra → t.Sound x ∧ t.reach = low.position ∧
    t.stop = up.position

/-- Damage begins: the spot is the same, but nothing is expected any more. -/
structure Breaks (low up : Spot) : Prop where
  state : up.state = 0
  position : up.position = low.position
  damage : up.damage = low.damage

/-- A way from a spot up to another one: the trees on it, and the number of its steps that
are no extra trees. -/
inductive Way (x : Context) (top : Spot) : Spot → List Tree → Nat → Prop
  | here : Way x top top [] 0
  | tree {low up : Spot} {t : Tree} {trees : List Tree} {d : Nat} (crosses : Crosses x low up t)
      (rest : Way x top up trees d) :
      Way x top low (t :: trees) (if t.extra then d else d + 1)
  | gap {low up : Spot} {trees : List Tree} {d : Nat} (breaks : Breaks low up)
      (rest : Way x top up trees d) : Way x top low trees (d + 1)

/-- What is known of a way into a state that is not damage. -/
structure Way.Holds (x : Context) (low top : Spot) (trees : List Tree) (d : Nat) : Prop where
  state_ne : low.state ≠ 0
  swallowed : ∀ t ∈ trees, t.label ≠ .swallowed
  ends : ∀ t ∈ trees, t.extra → t.label ≠ .terminal 0
  cost : ∀ t ∈ trees, ∀ c, t.label = .construct c → t.cost = belowCost t.children
  damage : top.damage = low.damage + (trees.map Tree.cost).sum
  path : ∃ syms, syms.length = d ∧
    (filling trees).map (fun t => t.label.sym?) = syms.map some ∧
      x.automaton.Path top.state low.state syms
  sound : top.damage = 0 → (∀ t ∈ trees, t.Sound x) ∧ Abreast low.position trees top.position

theorem Way.holds {g : Numbered} (hx : x.automaton = .ofGrammar g) {top low : Spot}
    {trees : List Tree} {d : Nat} (h : Way x top low trees d) (htop : top.state ≠ 0) :
    Way.Holds x low top trees d := by
  induction h with
  | here =>
    exact ⟨htop, by simp, by simp, by simp, by simp, ⟨[], rfl, rfl, .here⟩, fun _ => ⟨by simp, rfl⟩⟩
  -- every part is put together from that of the step and that of the way above it
  | @tree low up t trees d crosses _ ih =>
    have hup := ih.state_ne
    have hnot : t.label ≠ .swallowed := fun heq => hup (crosses.swallowed heq).1
    have hdamage : top.damage = low.damage + ((t :: trees).map Tree.cost).sum := by
      rw [ih.damage, crosses.damage, List.map_cons, List.sum_cons, Nat.add_assoc]
    have hsound : top.damage = 0 → (∀ u ∈ t :: trees, u.Sound x) ∧
        Abreast low.position (t :: trees) top.position := by
      intro hzero
      obtain ⟨htrees, habreast⟩ := ih.sound hzero
      have hupzero : up.damage = 0 := by
        have := ih.damage
        omega
      obtain ⟨ht, hreach, hstop⟩ := crosses.sound hupzero (.inl hup)
      rw [← hstop] at habreast
      exact ⟨List.forall_mem_cons.2 ⟨ht, htrees⟩, hreach, habreast⟩
    have hends := List.forall_mem_cons.2 ⟨crosses.ends, ih.ends⟩
    have hcost := List.forall_mem_cons.2 ⟨crosses.cost, ih.cost⟩
    obtain ⟨syms, hlen, hsyms, hpath⟩ := ih.path
    cases hextra : t.extra with
    -- an extra tree stays in its state, and is in no sequence
    | true =>
      have hstate := crosses.extra hup hextra
      refine ⟨hstate ▸ hup, List.forall_mem_cons.2 ⟨hnot, ih.swallowed⟩, hends, hcost,
        hdamage, ⟨syms, by simpa [hextra] using hlen, ?_, hstate ▸ hpath⟩, hsound⟩
      rw [← hsyms, filling, List.filter_cons_of_neg (by simp [hextra])]
      rfl
    -- any other tree is one symbol of the path
    | false =>
      obtain ⟨X, hX, hgoes⟩ := crosses.goes hup hextra
      refine ⟨?_, List.forall_mem_cons.2 ⟨hnot, ih.swallowed⟩, hends, hcost, hdamage,
        ⟨X :: syms, by simpa [hextra] using hlen, ?_, .step hgoes hpath⟩, hsound⟩
      · rw [hx] at hgoes
        exact hgoes.ne_zero
      · rw [filling, List.filter_cons_of_pos (by simp [hextra]), List.map_cons, hX,
          List.map_cons, ← hsyms]
        rfl
  -- damage is state 0, from where no step leads to another state
  | gap breaks _ ih => exact absurd breaks.state ih.state_ne

/-- A way without trees into a state that is not damage stays where it is. -/
theorem Way.eq_of_nil {top low : Spot} {trees : List Tree} {d : Nat} (h : Way x top low trees d)
    (hnil : trees = []) (htop : top.state ≠ 0) : low = top := by
  induction h with
  | here => rfl
  | tree _ _ => cases hnil
  | gap breaks _ ih => exact absurd (ih hnil ▸ breaks.state) htop

/-- A way over two lists of trees stops in between. -/
theorem Way.split {top low : Spot} {trees : List Tree} {d : Nat} (h : Way x top low trees d)
    {a b : List Tree} (hab : trees = a ++ b) :
    ∃ mid k l, Way x mid low a k ∧ Way x top mid b l ∧ d = k + l := by
  induction h generalizing a b with
  | here =>
    obtain ⟨rfl, rfl⟩ := List.append_eq_nil_iff.1 hab.symm
    exact ⟨top, 0, 0, .here, .here, rfl⟩
  | @tree low up t trees d crosses rest ih =>
    cases a with
    | nil =>
      obtain rfl : t :: trees = b := hab
      exact ⟨low, 0, _, .here, .tree crosses rest, (Nat.zero_add _).symm⟩
    | cons u a =>
      obtain ⟨rfl, htrees⟩ := List.cons.inj hab
      obtain ⟨mid, k, l, ha, hb, rfl⟩ := ih htrees
      refine ⟨mid, _, l, .tree crosses ha, hb, ?_⟩
      split <;> omega
  | @gap low up trees d breaks rest ih =>
    obtain ⟨mid, k, l, ha, hb, rfl⟩ := ih hab
    exact ⟨mid, k + 1, l, .gap breaks ha, hb, by omega⟩

end ScriptInventory.Script.Tolerant
