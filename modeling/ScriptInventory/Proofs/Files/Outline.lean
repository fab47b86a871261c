import ScriptInventory.Proofs.Files.Differ

/-!
# Trees up to the contents of files

Two trees have the same outline if at each place both have a file, whatever is in it and
whether or not it can be read, or both the same link, or both a directory that can be listed
or is denied for the same reason, or both nothing. Contents do not matter on the way along a
path. Main statement: paths lead to the same places
(`FileSystem.place_eq_of_sameOutline`).
-/

namespace ScriptInventory

namespace FileTree

/-- A tree without what is in its files and directories. -/
def outline : FileTree → FileTree
  | .file _ => .file (.readable .empty)
  | .link target => .link target
  | .directory denied _ => .directory denied []

/-- Two trees have files, links and directories at the same places. -/
def SameOutline (t t' : FileTree) : Prop :=
  ∀ place, (t.at? place).map outline = (t'.at? place).map outline

theorem SameOutline.symm {t t' : FileTree} (h : SameOutline t t') : SameOutline t' t :=
  fun place => (h place).symm

/-- Directories are at the same places in both trees, and listed alike. -/
theorem SameOutline.at?_directory {t t' : FileTree} (h : SameOutline t t')
    {place : List String} {denied : Option SystemError} {cs : List (String × FileTree)}
    (hat : t.at? place = some (.directory denied cs)) :
    ∃ cs', t'.at? place = some (.directory denied cs') := by
  have hplace := h place
  rw [hat, Option.map_some, outline] at hplace
  obtain ⟨u, hu, houtline⟩ := Option.map_eq_some_iff.1 hplace.symm
  cases u with
  | file body => cases houtline
  | link target => cases houtline
  | directory denied' cs' =>
    cases houtline
    exact ⟨cs', hu⟩

end FileTree

/-! ## Paths -/

namespace FileSystem

variable {s s' : FileSystem}

theorem Hop.into_outline (child : Option FileTree) :
    Hop.into (child.map FileTree.outline) = Hop.into child := by
  cases child with
  | none => rfl
  | some t => cases t <;> rfl

theorem hop_eq_of_sameOutline (h : FileTree.SameOutline s.root s'.root) (place : List String)
    (part : String) : s.hop place part = s'.hop place part := by
  have hinto : Hop.into (s.root.at? (place ++ [part])) =
      Hop.into (s'.root.at? (place ++ [part])) := by
    rw [← Hop.into_outline, h, Hop.into_outline]
  have hplace := h place
  unfold hop
  rw [hinto]
  cases hat : s.root.at? place with
  | none =>
    rw [hat] at hplace
    rw [Option.map_eq_none_iff.1 hplace.symm]
  | some t =>
    rw [hat] at hplace
    obtain ⟨t', ht', houtline⟩ := Option.map_eq_some_iff.1 hplace.symm
    rw [ht']
    cases t <;> cases t' <;> first | rfl | cases houtline

/-- Paths are followed alike where all hops are the same. -/
theorem follow_eq_of_hop_eq (h : ∀ place part, s.hop place part = s'.hop place part) :
    ∀ (links : Nat) (parts place : List String),
      s.follow links place parts = s'.follow links place parts := by
  intro links
  -- links take one of `links` away, all other hops a part
  induction links using Nat.strongRecOn with
  | _ links ihlinks =>
    intro parts
    induction parts with
    | nil =>
      intro place
      rw [follow_nil, follow_nil]
    | cons part rest ihparts =>
      intro place
      rw [follow_cons, follow_cons, h]
      cases s'.hop place part with
      | fails e => rfl
      | stays => exact ihparts place
      | up => exact ihparts _
      | on => exact ihparts _
      | link target =>
        cases links with
        | zero => rfl
        | succ links => exact ihlinks links (Nat.lt_succ_self _) _ _

/-- In a tree of the same outline, a path leads to the same place. -/
theorem place_eq_of_sameOutline (hhere : s'.here = s.here)
    (h : FileTree.SameOutline s.root s'.root) (path : String) :
    s'.place path = s.place path := by
  have hfollow := follow_eq_of_hop_eq (hop_eq_of_sameOutline h)
  unfold place placeFrom
  rw [hhere]
  simp only [hfollow]

end FileSystem

end ScriptInventory
