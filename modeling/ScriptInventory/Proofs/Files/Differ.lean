import Mathlib.Data.List.Basic
import ScriptInventory.Files.Tree

/-!
# Files that differ at one place

`FileTree.DifferAt` relates two trees that are the same but for one place, at which each
of them has a file or nothing. Main statement: a path leads to the same place in both,
or else in each of them it leads to that place or nowhere
(`FileTree.DifferAt.follow_agree`).

* `FileTree.DifferAt.at?_alike`: away from the place, the trees have the same files and
  links, and directories in the same places.
* `FileSystem.bodyFrom_eq`: what is read on a path that does not lead to the place is the
  same.
* `FileSystem.hop` is what one part of a path does; the two systems take the same hops
  until they come to the place, where no hop goes on.
-/

namespace ScriptInventory

namespace FileTree

/-- A child of a directory that is a file, or no child at all. -/
def slot (name : String) (body : Option FileBody) : List (String × FileTree) :=
  body.toList.map fun b => (name, .file b)

/-- Two trees differ at most at one place, where the first one has a file with the body
`was` or nothing, and the second one a file with the body `now` or nothing. -/
inductive DifferAt (was now : Option FileBody) : List String → FileTree → FileTree → Prop
  | here {name : String} {denied : Option SystemError}
      {front back : List (String × FileTree)} :
      name ∉ front.map Prod.fst → name ∉ back.map Prod.fst →
      DifferAt was now [name] (.directory denied (front ++ (slot name was ++ back)))
        (.directory denied (front ++ (slot name now ++ back)))
  | inside {name : String} {place : List String} {t t' : FileTree}
      {denied : Option SystemError} {front back : List (String × FileTree)} :
      name ∉ front.map Prod.fst → DifferAt was now place t t' →
      DifferAt was now (name :: place) (.directory denied (front ++ ((name, t) :: back)))
        (.directory denied (front ++ ((name, t') :: back)))

/-- What two trees may have at a place at which they do not differ: the same, or two
directories that can both be listed or are both denied for the same reason. -/
def Alike (x y : Option FileTree) : Prop :=
  x = y ∨ ∃ denied cs cs', x = some (.directory denied cs) ∧ y = some (.directory denied cs')

theorem child?_directory (denied : Option SystemError) (cs : List (String × FileTree))
    (name : String) :
    (directory denied cs).child? name = (cs.find? fun c => c.1 = name).map Prod.snd := rfl

@[simp] theorem at?_nil (t : FileTree) : t.at? [] = some t := by
  rw [at?]

theorem at?_cons (t : FileTree) (name : String) (rest : List String) :
    t.at? (name :: rest) = (t.child? name).bind fun c => c.at? rest := by
  rw [at?]

theorem find?_eq_none_of_not_mem {cs : List (String × FileTree)} {name : String}
    (h : name ∉ cs.map Prod.fst) : (cs.find? fun c => c.1 = name) = none := by
  rw [List.find?_eq_none]
  intro c hc heq
  exact h (List.mem_map.2 ⟨c, hc, of_decide_eq_true heq⟩)

/-- Behind children with other names. -/
theorem child?_append {front : List (String × FileTree)} {name : String}
    (h : name ∉ front.map Prod.fst) (denied : Option SystemError)
    (rest : List (String × FileTree)) :
    (directory denied (front ++ rest)).child? name = (directory denied rest).child? name := by
  rw [child?_directory, child?_directory, List.find?_append, find?_eq_none_of_not_mem h,
    Option.none_or]

theorem child?_cons_self (denied : Option SystemError) (name : String) (t : FileTree)
    (rest : List (String × FileTree)) :
    (directory denied ((name, t) :: rest)).child? name = some t := by
  simp [child?_directory]

theorem child?_slot_self {name : String} {back : List (String × FileTree)}
    (h : name ∉ back.map Prod.fst) (denied : Option SystemError) (body : Option FileBody) :
    (directory denied (slot name body ++ back)).child? name = body.map .file := by
  cases body with
  | none =>
    rw [show slot name none ++ back = back from rfl, child?_directory,
      find?_eq_none_of_not_mem h]
    rfl
  | some b => exact child?_cons_self denied name _ back

/-- Children in the middle do not matter for other names. -/
theorem child?_middle {front mid mid' back : List (String × FileTree)} {name : String}
    (h : name ∉ mid.map Prod.fst) (h' : name ∉ mid'.map Prod.fst)
    (denied : Option SystemError) :
    (directory denied (front ++ (mid ++ back))).child? name =
      (directory denied (front ++ (mid' ++ back))).child? name := by
  simp only [child?_directory, List.find?_append, find?_eq_none_of_not_mem h,
    find?_eq_none_of_not_mem h', Option.none_or]

theorem not_mem_slot {name other : String} (h : other ≠ name) (body : Option FileBody) :
    other ∉ (slot name body).map Prod.fst := by
  cases body <;> simp [slot, h]

namespace DifferAt

variable {was now : Option FileBody} {place : List String} {t t' : FileTree}

theorem at?_place (h : DifferAt was now place t t') :
    t.at? place = was.map .file ∧ t'.at? place = now.map .file := by
  induction h with
  | here hfront hback =>
    simp only [at?_cons, child?_append hfront, child?_slot_self hback]
    cases was <;> cases now <;> exact ⟨rfl, rfl⟩
  | inside hfront _ ih =>
    simp only [at?_cons, child?_append hfront, child?_cons_self, Option.bind_some]
    exact ih

/-- Only directories differ at a place below them. -/
theorem directories (h : DifferAt was now place t t') :
    ∃ denied cs cs', t = .directory denied cs ∧ t' = .directory denied cs' := by
  cases h with
  | here _ _ => exact ⟨_, _, _, rfl, rfl⟩
  | inside _ _ => exact ⟨_, _, _, rfl, rfl⟩

/-- At any other place, two trees have the same, or else subtrees that differ at the rest
of the way. -/
theorem at?_differ (h : DifferAt was now place t t') :
    ∀ q, q ≠ place → t.at? q = t'.at? q ∨
      ∃ u u' rest, t.at? q = some u ∧ t'.at? q = some u' ∧ DifferAt was now rest u u' := by
  have hnot : ∀ (body : Option FileBody) (first : String) (rest : List String),
      ((body.map FileTree.file).bind fun c => c.at? (first :: rest)) = none := by
    intro body first rest
    cases body <;> rfl
  induction h with
  | @here name denied front back hfront hback =>
    intro q hq
    cases q with
    | nil => exact .inr ⟨_, _, _, at?_nil _, at?_nil _, .here hfront hback⟩
    | cons first rest =>
      left
      by_cases hname : first = name
      · -- below a file there is nothing
        subst hname
        rw [at?_cons, at?_cons, child?_append hfront, child?_append hfront,
          child?_slot_self hback, child?_slot_self hback]
        cases rest with
        | nil => exact absurd rfl hq
        | cons second rest => rw [hnot, hnot]
      · rw [at?_cons, at?_cons,
          child?_middle (not_mem_slot hname was) (not_mem_slot hname now)]
  | @inside name place t t' denied front back hfront hdiffer ih =>
    intro q hq
    cases q with
    | nil => exact .inr ⟨_, _, _, at?_nil _, at?_nil _, .inside hfront hdiffer⟩
    | cons first rest =>
      by_cases hname : first = name
      · subst hname
        simp only [at?_cons, child?_append hfront, child?_cons_self, Option.bind_some]
        exact ih rest fun heq => hq (by rw [heq])
      · left
        have hmid : ∀ u : FileTree, first ∉ [(name, u)].map Prod.fst := by
          intro u
          simpa using hname
        rw [at?_cons, at?_cons]
        show ((directory denied (front ++ ([(name, t)] ++ back))).child? first).bind _ =
          ((directory denied (front ++ ([(name, t')] ++ back))).child? first).bind _
        rw [child?_middle (hmid t) (hmid t')]

theorem at?_alike (h : DifferAt was now place t t') {q : List String} (hq : q ≠ place) :
    Alike (t.at? q) (t'.at? q) := by
  rcases h.at?_differ q hq with heq | ⟨u, u', rest, hu, hu', hdiffer⟩
  · exact .inl heq
  · obtain ⟨denied, cs, cs', rfl, rfl⟩ := hdiffer.directories
    exact .inr ⟨denied, cs, cs', hu, hu'⟩

end DifferAt

end FileTree

/-! ## Following paths -/

namespace FileSystem

/-- What one part of a path does at a place. -/
inductive Hop where
  | fails (error : FileError)
  | stays
  | up
  | link (target : String)
  | on

/-- What a child with a name is to a path. -/
def Hop.into : Option FileTree → Hop
  | none => .fails .notFound
  | some (.link target) => .link target
  | some _ => .on

/-- What a part of a path does at a place. -/
def hop (s : FileSystem) (place : List String) (part : String) : Hop :=
  match s.root.at? place with
  | none => .fails .notFound
  | some (.directory _ _) =>
    if part = "" ∨ part = "." then .stays
    else if part = ".." then .up
    else .into (s.root.at? (place ++ [part]))
  | some _ => .fails .notDirectory

theorem at?_append_singleton (t : FileTree) (place : List String) (part : String) :
    t.at? (place ++ [part]) = (t.at? place).bind fun c => c.child? part := by
  induction place generalizing t with
  | nil =>
    rw [List.nil_append, FileTree.at?_cons, FileTree.at?_nil, Option.bind_some]
    cases t.child? part with
    | none => rfl
    | some c => exact FileTree.at?_nil c
  | cons name rest ih =>
    rw [List.cons_append, FileTree.at?_cons, FileTree.at?_cons]
    cases t.child? name with
    | none => rfl
    | some c => exact ih c

@[simp] theorem follow_nil (s : FileSystem) (links : Nat) (place : List String) :
    s.follow links place [] = .ok place := by
  rw [follow]

/-- Following a path takes one hop after the other. -/
theorem follow_cons (s : FileSystem) (links : Nat) (place : List String) (part : String)
    (rest : List String) :
    s.follow links place (part :: rest) =
      match s.hop place part with
      | .fails e => .error e
      | .stays => s.follow links place rest
      | .up => s.follow links place.dropLast rest
      | .on => s.follow links (place ++ [part]) rest
      | .link target =>
        match links with
        | 0 => .error .tooManyLinks
        | links + 1 =>
          s.follow links (start place target).1 ((start place target).2 ++ rest) := by
  rw [follow, hop]
  cases hat : s.root.at? place with
  | none => rfl
  | some t =>
    cases t with
    | file body => rfl
    | link target => rfl
    | directory denied children =>
      have hchild : s.root.at? (place ++ [part]) =
          (children.find? fun c => c.1 = part).map Prod.snd := by
        rw [at?_append_singleton, hat, Option.bind_some, FileTree.child?_directory]
      -- only the name of an entry is looked up, so the names that are none come first
      by_cases hstay : part = "" ∨ part = "."
      · simp [hstay]
      · by_cases hup : part = ".."
        · simp [hup]
        · simp only [hstay, hup, if_false, hchild, Bool.or_eq_true, decide_eq_true_eq]
          cases (children.find? fun c => c.1 = part).map Prod.snd with
          | none => rfl
          | some t =>
            cases t with
            | link target => cases links <;> rfl
            | file body => rfl
            | directory denied cs => rfl

/-- A path without slashes has one part. -/
theorem start_of_slash_not_mem (base : List String) {part : String} (h : '/' ∉ part.toList) :
    start base part = (base, [part]) := by
  have hslash : ¬ part.startsWith "/" := by
    rw [String.startsWith_string_iff]
    exact fun hfront => h (hfront.subset (by simp))
  rw [start, if_neg hslash, pathParts, List.splitOn_eq_singleton h]
  simp

/-- A dot leads to the directory that paths start from. -/
theorem place_dot {s : FileSystem} {denied : Option SystemError}
    {children : List (String × FileTree)}
    (h : s.root.at? s.here = some (.directory denied children)) : s.place "." = .ok s.here := by
  rw [place, placeFrom, if_neg (by decide), start_of_slash_not_mem _ (by simp)]
  simp [follow_cons, hop, h]

/-- A path that comes to a place ends there, or leads nowhere. -/
def Stops (place : List String) (r : Except FileError (List String)) : Prop :=
  r = .ok place ∨ ∃ e, r = .error e

/-- Two ends of a path: the same, or neither is anywhere but at a place. -/
def Agree (place : List String) (r r' : Except FileError (List String)) : Prop :=
  r = r' ∨ (Stops place r ∧ Stops place r')

theorem follow_stops {s : FileSystem} {place : List String}
    (h : ∀ denied cs, s.root.at? place ≠ some (.directory denied cs)) (links : Nat)
    (parts : List String) :
    Stops place (s.follow links place parts) := by
  cases parts with
  | nil => exact .inl (follow_nil s links place)
  | cons part rest =>
    have hfails : ∃ e, s.hop place part = .fails e := by
      rw [hop]
      cases hat : s.root.at? place with
      | none => exact ⟨_, rfl⟩
      | some t =>
        cases t with
        | file body => exact ⟨_, rfl⟩
        | link target => exact ⟨_, rfl⟩
        | directory denied cs => exact absurd hat (h denied cs)
    obtain ⟨e, he⟩ := hfails
    rw [follow_cons, he]
    exact .inr ⟨e, rfl⟩

section Differ

variable {was now : Option FileBody} {place : List String} {s s' : FileSystem}

/-- Nothing is below the place at which two systems differ. -/
theorem not_directory_of_differ (h : FileTree.DifferAt was now place s.root s'.root) :
    (∀ denied cs, s.root.at? place ≠ some (.directory denied cs)) ∧
      ∀ denied cs, s'.root.at? place ≠ some (.directory denied cs) := by
  obtain ⟨hwas, hnow⟩ := h.at?_place
  constructor
  · intro denied cs
    rw [hwas]
    cases was <;> simp
  · intro denied cs
    rw [hnow]
    cases now <;> simp

/-- Away from the place, the two systems take the same hops, but for hops to the place. -/
theorem hop_eq (h : FileTree.DifferAt was now place s.root s'.root) {p : List String}
    (hp : p ≠ place) (part : String) :
    s.hop p part = s'.hop p part ∨
      (p ++ [part] = place ∧ (s.hop p part = .on ∨ ∃ e, s.hop p part = .fails e) ∧
        (s'.hop p part = .on ∨ ∃ e, s'.hop p part = .fails e)) := by
  have hinto : ∀ body : Option FileBody, Hop.into (body.map .file) = .on ∨
      ∃ e, Hop.into (body.map .file) = .fails e := by
    intro body
    cases body with
    | none => exact .inr ⟨_, rfl⟩
    | some b => exact .inl rfl
  rcases h.at?_alike hp with heq | ⟨_, cs, cs', hcs, hcs'⟩
  · -- the same file, link or directory: all children are the same
    left
    simp only [hop, at?_append_singleton, heq]
  · by_cases hstay : part = "" ∨ part = "."
    · left
      simp only [hop, hcs, hcs', if_pos hstay]
    · by_cases hup : part = ".."
      · left
        simp only [hop, hcs, hcs', if_neg hstay, if_pos hup]
      · simp only [hop, hcs, hcs', if_neg hstay, if_neg hup]
        by_cases hplace : p ++ [part] = place
        · right
          obtain ⟨hwas, hnow⟩ := h.at?_place
          rw [hplace, hwas, hnow]
          exact ⟨rfl, hinto was, hinto now⟩
        · left
          rcases h.at?_alike hplace with heq | ⟨_, ds, ds', hds, hds'⟩
          · rw [heq]
          · rw [hds, hds']
            rfl

/-- A path leads to the same place in both systems, or in neither of them to any place
but the one at which they differ. -/
theorem follow_agree (h : FileTree.DifferAt was now place s.root s'.root) :
    ∀ (links : Nat) (parts p : List String),
      Agree place (s.follow links p parts) (s'.follow links p parts) := by
  obtain ⟨hs, hs'⟩ := not_directory_of_differ h
  intro links
  -- links take one of `links` away, all other hops a part
  induction links using Nat.strongRecOn with
  | _ links ihlinks =>
    intro parts
    induction parts with
    | nil =>
      intro p
      exact .inl (by rw [follow_nil, follow_nil])
    | cons part rest ihparts =>
      intro p
      by_cases hp : p = place
      · subst hp
        exact .inr ⟨follow_stops hs links _, follow_stops hs' links _⟩
      · rw [follow_cons, follow_cons]
        rcases hop_eq h hp part with heq | ⟨hplace, hon, hon'⟩
        · rw [heq]
          cases s'.hop p part with
          | fails e => exact .inl rfl
          | stays => exact ihparts p
          | up => exact ihparts _
          | on => exact ihparts _
          | link target =>
            cases links with
            | zero => exact .inl rfl
            | succ links => exact ihlinks links (Nat.lt_succ_self _) _ _
        · right
          rw [hplace]
          constructor
          · rcases hon with hon | ⟨e, hon⟩
            · rw [hon]
              exact follow_stops hs links rest
            · rw [hon]
              exact .inr ⟨e, rfl⟩
          · rcases hon' with hon' | ⟨e, hon'⟩
            · rw [hon']
              exact follow_stops hs' links rest
            · rw [hon']
              exact .inr ⟨e, rfl⟩

theorem placeFrom_agree (h : FileTree.DifferAt was now place s.root s'.root)
    (base : List String) (path : String) :
    Agree place (s.placeFrom base path) (s'.placeFrom base path) := by
  unfold placeFrom
  by_cases hempty : path = ""
  · rw [if_pos hempty, if_pos hempty]
    exact .inl rfl
  · rw [if_neg hempty, if_neg hempty]
    exact follow_agree h _ _ _

/-- A path that does not lead to the place leads to the same file in both systems, or in
neither of them to any. -/
theorem bodyFrom_eq (h : FileTree.DifferAt was now place s.root s'.root)
    {base : List String} {path : String} (hs : s.placeFrom base path ≠ .ok place)
    (hs' : s'.placeFrom base path ≠ .ok place) :
    (s.bodyFrom base path).toOption = (s'.bodyFrom base path).toOption := by
  unfold bodyFrom
  rcases placeFrom_agree h base path with heq | ⟨hstop, hstop'⟩
  · rw [heq]
    cases hto : s'.placeFrom base path with
    | error e => rfl
    | ok q =>
      have hq : q ≠ place := fun hq => hs' (by rw [hto, hq])
      rcases h.at?_alike hq with hat | ⟨denied, cs, cs', hcs, hcs'⟩
      · simp only [bind, Except.bind, hat]
      · simp only [bind, Except.bind, hcs, hcs']
        cases denied <;> rfl
  · -- neither path leads to the place, so both of them lead nowhere
    rcases hstop with hok | ⟨e, he⟩
    · exact absurd hok hs
    · rcases hstop' with hok' | ⟨e', he'⟩
      · exact absurd hok' hs'
      · rw [he, he']
        rfl

theorem content?_eq (h : FileTree.DifferAt was now place s.root s'.root)
    {base : List String} {path : String} (hs : s.placeFrom base path ≠ .ok place)
    (hs' : s'.placeFrom base path ≠ .ok place) : s.content? base path = s'.content? base path := by
  rw [content?, content?, bodyFrom_eq h hs hs']

end Differ

end FileSystem

end ScriptInventory
