import Mathlib.Data.List.Lex
import Mathlib.Data.List.Sort
import Mathlib.Data.String.Basic
import ScriptInventory.Scan.Sources

/-!
# The order of sources

The sources of a directory are what a walk finds in it, sorted by their paths
(`FileSystem.sources_eq_ok_iff`), and the sort is stable. Main statements: leaving out
sources before the sort or after it makes no difference (`List.filter_mergeSort`), and what
is a sublist before the sort is one after it (`List.Sublist.mergeSort`), since the order of
paths is total (`SourceFile.isInOrder_total`); and if no path occurs twice, the order is
strict (`SourceFile.pairwise_lt_mergeSort`).
-/

namespace List

variable {α : Type} {le : α → α → Bool}

/-- A stable sort puts the first element behind those below it and in front of the others. -/
theorem mergeSort_cons_eq_filter (trans : ∀ a b c, le a b → le b c → le a c)
    (total : ∀ a b, le a b || le b a) (a : α) (l : List α) :
    (a :: l).mergeSort le =
      (l.mergeSort le).filter (fun b => !le a b) ++ a :: (l.mergeSort le).filter (le a) := by
  obtain ⟨front, back, hsort, hrest, hfront⟩ := mergeSort_cons trans total a l
  have hback : ∀ b ∈ back, le a b := by
    have hsorted := pairwise_mergeSort trans total (a :: l)
    rw [hsort, pairwise_append] at hsorted
    exact (pairwise_cons.1 hsorted.2.1).1
  have hbelow : (front ++ back).filter (fun b => !le a b) = front := by
    rw [filter_append, filter_eq_self.2 hfront, filter_eq_nil_iff.2, append_nil]
    intro b hb
    simp [hback b hb]
  have habove : (front ++ back).filter (le a) = back := by
    rw [filter_append, filter_eq_self.2 hback, filter_eq_nil_iff.2, nil_append]
    intro b hb
    simpa using hfront b hb
  rw [hrest, hbelow, habove, hsort]

/-- A stable sort keeps what is a sublist a sublist. -/
theorem Sublist.mergeSort (trans : ∀ a b c, le a b → le b c → le a c)
    (total : ∀ a b, le a b || le b a) {l l' : List α} (h : l <+ l') :
    l.mergeSort le <+ l'.mergeSort le := by
  induction h with
  | slnil => exact Sublist.refl _
  | @cons l l' a h ih =>
    obtain ⟨front, back, hsort, hrest, -⟩ := mergeSort_cons trans total a l'
    rw [hrest] at ih
    rw [hsort]
    exact ih.trans (Sublist.append_left (sublist_cons_self a back) front)
  | @cons_cons l l' a h ih =>
    rw [mergeSort_cons_eq_filter trans total, mergeSort_cons_eq_filter trans total]
    exact (ih.filter _).append ((ih.filter _).cons_cons a)

end List

namespace ScriptInventory

namespace SourceFile

theorem isInOrder_iff {a b : SourceFile} : a.isInOrder b ↔ ¬ b.path < a.path := by
  rw [isInOrder, Bool.not_eq_true', Bool.eq_false_iff, Ne, List.lex_eq_true_iff_lt]

theorem isInOrder_trans (a b c : SourceFile) (hab : a.isInOrder b) (hbc : b.isInOrder c) :
    a.isInOrder c := by
  rw [isInOrder_iff, not_lt] at *
  exact le_trans hab hbc

theorem isInOrder_total (a b : SourceFile) : a.isInOrder b || b.isInOrder a := by
  rw [Bool.or_eq_true, isInOrder_iff, isInOrder_iff, not_lt, not_lt]
  exact le_total _ _

/-- Sources without a path in common are sorted strictly. -/
theorem pairwise_lt_mergeSort {l : List SourceFile} (h : (l.map path).Nodup) :
    (l.mergeSort isInOrder).Pairwise fun f g => f.path < g.path := by
  have hsorted := List.pairwise_mergeSort isInOrder_trans isInOrder_total l
  have hnodup : ((l.mergeSort isInOrder).map path).Nodup :=
    ((List.mergeSort_perm l isInOrder).map path).nodup_iff.2 h
  rw [List.Nodup, List.pairwise_map] at hnodup
  refine (hsorted.and hnodup).imp ?_
  rintro f g ⟨hle, hne⟩
  rw [isInOrder_iff, not_lt] at hle
  exact lt_of_le_of_ne hle hne

/-- Sources in strict order are known by which they are. -/
theorem eq_of_mem_iff {l l' : List SourceFile}
    (h : l.Pairwise fun f g => f.path < g.path) (h' : l'.Pairwise fun f g => f.path < g.path)
    (hmem : ∀ f, f ∈ l ↔ f ∈ l') : l = l' := by
  have hasymm : Std.Asymm fun f g : SourceFile => f.path < g.path := ⟨fun _ _ => lt_asymm⟩
  have hirrefl : Std.Irrefl fun f g : SourceFile => f.path < g.path := ⟨fun f => lt_irrefl f.path⟩
  exact h.eq_of_mem_iff h' hmem

end SourceFile

namespace FileSystem

/-- The sources below a directory, as the walk finds them. -/
def found (s : FileSystem) (root : String) (config : ScanConfig) (excluded : List Ignore.Rule)
    (top : List String) (children : List (String × FileTree)) : List SourceFile :=
  if isStandardInput root then []
  else
    let w := s.walk root config excluded
    w.entries (w.start top) top [] children

theorem sources_eq_ok_iff {s : FileSystem} {root : String} {config : ScanConfig}
    {sources : List SourceFile} :
    s.sources root config = .ok sources ↔
      ∃ top children excluded, s.place root = .ok top ∧
        s.root.at? top = some (.directory none children) ∧
        exclusions root config.excluded = .ok excluded ∧
        sources = (s.found root config excluded top children).mergeSort
          SourceFile.isInOrder := by
  unfold FileSystem.sources
  constructor
  · intro h
    cases htop : s.place root with
    | error e => simp [htop] at h
    | ok top =>
      cases hat : s.root.at? top with
      | none => simp [htop, hat] at h
      | some t =>
        cases t with
        | file body => simp [htop, hat] at h
        | link target => simp [htop, hat] at h
        | directory denied children =>
          cases denied with
          | some error => simp [htop, hat] at h
          | none =>
            cases hex : exclusions root config.excluded with
            | error e => simp [htop, hat, hex, bind, Except.bind] at h
            | ok excluded =>
              simp only [htop, hat, hex, bind, Except.bind, pure, Except.pure,
                Except.ok.injEq] at h
              exact ⟨top, children, excluded, rfl, hat, rfl, h.symm⟩
  · rintro ⟨top, children, excluded, htop, hat, hex, rfl⟩
    simp only [htop, hat, hex, bind, Except.bind, pure, Except.pure]
    rfl

end FileSystem

end ScriptInventory
