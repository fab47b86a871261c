import ScriptInventory.Config
import ScriptInventory.Proofs.Json.Structure

/-!
# The format of settings

Which JSON objects are settings, and which settings they are. Main statement: if the fields that
are known are each given at most once, settings are accepted if and only if each of these fields
that is there has a value of its type; it then has that value, each other field has its default,
and neither the order of the members nor unknown ones are of any account
(`Config.ofText_keeps_defaults`).
-/

namespace ScriptInventory

open Json

/-! ## Values of fields -/

def IsTexts : Kind (List String) := fun d texts => d = .array (texts.map Document.string)

theorem reads_texts (d : Document) : Reads (readList readText) IsTexts d := by
  have hlist : Reads (readList readText) (IsList IsText) d := reads_list fun _ _ item _ =>
    reads_text item
  exact hlist.congr fun _ => isList_eq_iff

/-- The name of a strategy, or an object that gives `null` to that name and has no other
member. -/
def Strategy.IsGivenBy (s : Strategy) (d : Document) : Prop :=
  d = .string s.name ∨ d = .object [(s.name, .null)]

theorem Strategy.reads (d : Document) : Reads Strategy.read (fun d s => s.IsGivenBy d) d := by
  refine (reads_variant (fun name d s => s.name = name ∧ d = .null) ?_).congr fun s => ?_
  · have hcontent : ∀ (s : Strategy) content,
        Reads (fun i => (readNothing i).map fun p => (s, p.2))
          (fun d t => ∃ u, IsNothing d u ∧ s = t) content :=
      fun s content => (reads_nothing content).map fun _ => s
    refine List.forall_mem_cons.2 ⟨fun content => ?_, List.forall_mem_singleton.2 fun content => ?_⟩
    · refine (hcontent .pattern content).congr fun s => ?_
      cases s <;> simp [IsNothing, Strategy.name]
    · refine (hcontent .structural content).congr fun s => ?_
      cases s <;> simp [IsNothing, Strategy.name]
  · constructor
    · rintro (⟨name, v, rfl, hv, halone⟩ | ⟨name, content, v, rfl, -, rfl, rfl⟩)
      · have hname : v.name = name := by simpa using List.find?_some hv
        subst hname
        rcases List.mem_pair.1 (List.mem_of_find?_eq_some hv) with rfl | rfl <;>
        · obtain rfl := Except.ok.inj halone
          exact .inl rfl
      · exact .inr rfl
    · cases s <;> rintro (rfl | rfl)
      · exact .inl ⟨"pattern", _, rfl, rfl, rfl⟩
      · exact .inr ⟨"pattern", .null, _, rfl, rfl, rfl, rfl⟩
      · exact .inl ⟨"structural", _, rfl, rfl, rfl⟩
      · exact .inr ⟨"structural", .null, _, rfl, rfl, rfl, rfl⟩

/-! ## Settings of directory scans -/

namespace ScanConfig

/-- The fields of the settings of a directory scan. -/
inductive Key where
  | extensions
  | excluded
  | respectsIgnoreFiles
  | maxFileBytes

/-- The fields of the settings of a directory scan in their state. -/
def layout : Layout Given where
  Key := Key
  keys := [.extensions, .excluded, .respectsIgnoreFiles, .maxFileBytes]
  mem_keys := by rintro (_ | _ | _ | _) <;> simp
  name
    | .extensions => "extensions"
    | .excluded => "exclude_dir_names"
    | .respectsIgnoreFiles => "respect_ignore_files"
    | .maxFileBytes => "max_file_bytes"
  name_injective := by
    rintro (_ | _ | _ | _) (_ | _ | _ | _) h <;> first | rfl | exact absurd h (by decide)
  Value
    | .extensions => List String
    | .excluded => List String
    | .respectsIgnoreFiles => Bool
    | .maxFileBytes => Nat
  read
    | .extensions => readList readText
    | .excluded => readList readText
    | .respectsIgnoreFiles => readBool
    | .maxFileBytes => readNatural
  get
    | .extensions, g => g.extensions
    | .excluded, g => g.excluded
    | .respectsIgnoreFiles, g => g.respectsIgnoreFiles
    | .maxFileBytes, g => g.maxFileBytes
  set
    | .extensions, v, g => { g with extensions := some v }
    | .excluded, v, g => { g with excluded := some v }
    | .respectsIgnoreFiles, v, g => { g with respectsIgnoreFiles := some v }
    | .maxFileBytes, v, g => { g with maxFileBytes := some v }
  get_set := by rintro (_ | _ | _ | _) v g <;> rfl
  get_set_of_ne := by
    rintro (_ | _ | _ | _) (_ | _ | _ | _) v g h <;> first | rfl | exact absurd rfl h
  ext := by
    rintro ⟨_, _, _, _⟩ ⟨_, _, _, _⟩ h
    cases h .extensions
    cases h .excluded
    cases h .respectsIgnoreFiles
    cases h .maxFileBytes
    rfl

theorem fields_eq : fields = layout.fields := rfl

def kind : (k : Key) → Kind (layout.Value k)
  | .extensions => IsTexts
  | .excluded => IsTexts
  | .respectsIgnoreFiles => IsBool
  | .maxFileBytes => IsNatural

/-- The names of the members that the settings of a directory scan are made of. -/
def fieldNames : List String :=
  ["extensions", "exclude_dir_names", "respect_ignore_files", "max_file_bytes"]

/-- The settings of a directory scan are given by members: each has the value of the member of
its name, or the default. -/
@[mk_iff]
structure IsGivenBy (c : ScanConfig) (members : List (String × Document)) : Prop where
  extensions : Gives members "extensions" IsTexts ({} : ScanConfig).extensions c.extensions
  excluded : Gives members "exclude_dir_names" IsTexts ({} : ScanConfig).excluded c.excluded
  respectsIgnoreFiles : Gives members "respect_ignore_files" IsBool
    ({} : ScanConfig).respectsIgnoreFiles c.respectsIgnoreFiles
  maxFileBytes : Gives members "max_file_bytes" IsNatural
    ({} : ScanConfig).maxFileBytes c.maxFileBytes

/-- The settings of a directory scan are given by an object. -/
def IsSection : Kind ScanConfig := fun d c => ∃ members, d = .object members ∧ c.IsGivenBy members

theorem isSection_object {members : List (String × Document)} {c : ScanConfig} :
    IsSection (.object members) c ↔ c.IsGivenBy members := by
  simp only [IsSection, Document.object.injEq, exists_eq_left']

theorem reads {members : List (String × Document)}
    (honce : ∀ name ∈ fieldNames, AtMostOnce name members) :
    Reads ScanConfig.read IsSection (.object members) := by
  have honceKey : ∀ k, AtMostOnce (layout.name k) members := by
    rintro (_ | _ | _ | _) <;> exact honce _ (by decide)
  have hempty : ∀ k, layout.get k {} = none := by rintro (_ | _ | _ | _) <;> rfl
  -- each field has a reader for its own type
  have hkind : ∀ (k : Key) (d : Document), Reads (layout.read k) (kind k) d := by
    rintro (_ | _ | _ | _) d
    · exact reads_texts d
    · exact reads_texts d
    · exact reads_bool d
    · exact reads_natural d
  have hobject : Reads (readStruct "ScanConfig" fields {}) (layout.IsObject kind)
      (.object members) :=
    fields_eq ▸ Layout.reads hempty honceKey (fun k m _ _ => hkind k m.2) "ScanConfig"
  have hread := hobject.map Given.config
  refine hread.congr fun c => ?_
  rw [isSection_object]
  constructor
  · -- a field that is not given is left at its default, by `Given.config`
    rintro ⟨g, hg, rfl⟩
    have hkeys := Layout.isObject_object.1 hg
    exact ⟨gives_iff.2 ⟨_, hkeys .extensions, rfl⟩, gives_iff.2 ⟨_, hkeys .excluded, rfl⟩,
      gives_iff.2 ⟨_, hkeys .respectsIgnoreFiles, rfl⟩,
      gives_iff.2 ⟨_, hkeys .maxFileBytes, rfl⟩⟩
  · intro hgiven
    obtain ⟨extensions, hextensions, he⟩ := gives_iff.1 hgiven.extensions
    obtain ⟨excluded, hexcluded, hx⟩ := gives_iff.1 hgiven.excluded
    obtain ⟨respects, hrespects, hr⟩ := gives_iff.1 hgiven.respectsIgnoreFiles
    obtain ⟨most, hmost, hm⟩ := gives_iff.1 hgiven.maxFileBytes
    refine ⟨⟨extensions, excluded, respects, most⟩, Layout.isObject_object.2 ?_, ?_⟩
    · rintro (_ | _ | _ | _)
      · exact hextensions
      · exact hexcluded
      · exact hrespects
      · exact hmost
    · rw [Given.config]
      dsimp only
      rw [he, hx, hr, hm]

/-- The known fields that are there have values of their types. -/
structure Fits (members : List (String × Document)) : Prop where
  extensions : ∀ d, ("extensions", d) ∈ members → ∃ texts, IsTexts d texts
  excluded : ∀ d, ("exclude_dir_names", d) ∈ members → ∃ texts, IsTexts d texts
  respectsIgnoreFiles : ∀ d, ("respect_ignore_files", d) ∈ members → ∃ b, IsBool d b
  maxFileBytes : ∀ d, ("max_file_bytes", d) ∈ members → ∃ n, IsNatural d n

theorem exists_isSection_iff {members : List (String × Document)}
    (honce : ∀ name ∈ fieldNames, AtMostOnce name members) :
    (∃ c, IsSection (.object members) c) ↔ Fits members := by
  have he := honce "extensions" (by decide)
  have hx := honce "exclude_dir_names" (by decide)
  have hr := honce "respect_ignore_files" (by decide)
  have hm := honce "max_file_bytes" (by decide)
  simp only [isSection_object]
  constructor
  · rintro ⟨c, hc⟩
    exact ⟨he.exists_gives_iff.1 ⟨_, hc.extensions⟩, hx.exists_gives_iff.1 ⟨_, hc.excluded⟩,
      hr.exists_gives_iff.1 ⟨_, hc.respectsIgnoreFiles⟩,
      hm.exists_gives_iff.1 ⟨_, hc.maxFileBytes⟩⟩
  · rintro ⟨hextensions, hexcluded, hrespects, hmost⟩
    obtain ⟨extensions, hextensions⟩ := he.exists_gives_iff.2 hextensions
    obtain ⟨excluded, hexcluded⟩ := hx.exists_gives_iff.2 hexcluded
    obtain ⟨respects, hrespects⟩ := hr.exists_gives_iff.2 hrespects
    obtain ⟨most, hmost⟩ := hm.exists_gives_iff.2 hmost
    exact ⟨⟨extensions, excluded, respects, most⟩, hextensions, hexcluded, hrespects, hmost⟩

/-- Other members, and the order of the members, are of no account. -/
theorem isGivenBy_congr {members members' : List (String × Document)}
    (honce : ∀ name ∈ fieldNames, AtMostOnce name members)
    (h : SameMembers fieldNames members members') (c : ScanConfig) :
    c.IsGivenBy members' ↔ c.IsGivenBy members := by
  rw [isGivenBy_iff, isGivenBy_iff, h.gives_iff (by decide) (honce _ (by decide)),
    h.gives_iff (by decide) (honce _ (by decide)), h.gives_iff (by decide) (honce _ (by decide)),
    h.gives_iff (by decide) (honce _ (by decide))]

end ScanConfig

/-! ## Settings of page scans -/

namespace PageConfig

/-- The field of the settings of a page scan in its state. -/
def layout : Layout (Option Strategy) where
  Key := Unit
  keys := [()]
  mem_keys := by simp
  name _ := "strategy"
  name_injective _ _ _ := rfl
  Value _ := Strategy
  read _ := Strategy.read
  get _ s := s
  set _ v _ := some v
  get_set _ _ _ := rfl
  get_set_of_ne _ _ h := absurd rfl h
  ext h := h ()

theorem fields_eq : fields = layout.fields := rfl

/-- The settings of a page scan are given by members. -/
@[mk_iff]
structure IsGivenBy (c : PageConfig) (members : List (String × Document)) : Prop where
  strategy : Gives members "strategy" (fun d s => s.IsGivenBy d) ({} : PageConfig).strategy
    c.strategy

/-- The settings of a page scan are given by an object. -/
def IsSection : Kind PageConfig := fun d c => ∃ members, d = .object members ∧ c.IsGivenBy members

theorem isSection_object {members : List (String × Document)} {c : PageConfig} :
    IsSection (.object members) c ↔ c.IsGivenBy members := by
  simp only [IsSection, Document.object.injEq, exists_eq_left']

theorem reads {members : List (String × Document)} (honce : AtMostOnce "strategy" members) :
    Reads PageConfig.read IsSection (.object members) := by
  have hobject : Reads (readStruct "PageConfig" fields none)
      (layout.IsObject fun _ d s => s.IsGivenBy d) (.object members) :=
    fields_eq ▸ Layout.reads (fun _ => rfl) (fun _ => honce)
      (fun _ m _ _ => Strategy.reads m.2) "PageConfig"
  have hread := hobject.map fun s => (⟨s.getD ({} : PageConfig).strategy⟩ : PageConfig)
  refine hread.congr fun c => ?_
  rw [isSection_object]
  constructor
  · rintro ⟨s, hs, rfl⟩
    exact ⟨gives_iff.2 ⟨s, Layout.isObject_object.1 hs (), rfl⟩⟩
  · intro hgiven
    obtain ⟨s, hs, h⟩ := gives_iff.1 hgiven.strategy
    exact ⟨s, Layout.isObject_object.2 fun _ => hs, by rw [h]⟩

theorem exists_isSection_iff {members : List (String × Document)}
    (honce : AtMostOnce "strategy" members) :
    (∃ c, IsSection (.object members) c) ↔
      ∀ d, ("strategy", d) ∈ members → ∃ s : Strategy, s.IsGivenBy d := by
  simp only [isSection_object]
  constructor
  · rintro ⟨c, ⟨hc⟩⟩
    exact honce.exists_gives_iff.1 ⟨_, hc⟩
  · intro h
    obtain ⟨s, hs⟩ := honce.exists_gives_iff.2 h
    exact ⟨⟨s⟩, ⟨hs⟩⟩

/-- Other members, and the order of the members, are of no account. -/
theorem isGivenBy_congr {members members' : List (String × Document)}
    (honce : AtMostOnce "strategy" members) (h : SameMembers ["strategy"] members members')
    (c : PageConfig) : c.IsGivenBy members' ↔ c.IsGivenBy members := by
  rw [isGivenBy_iff, isGivenBy_iff, h.gives_iff List.mem_cons_self honce]

end PageConfig

/-! ## All settings -/

namespace Config

/-- The sections of the settings. -/
inductive Key where
  | scan
  | page

/-- The sections of the settings in their state. -/
def layout : Layout Given where
  Key := Key
  keys := [.scan, .page]
  mem_keys := by rintro (_ | _) <;> simp
  name
    | .scan => "scan"
    | .page => "page"
  name_injective := by rintro (_ | _) (_ | _) h <;> first | rfl | exact absurd h (by decide)
  Value
    | .scan => ScanConfig
    | .page => PageConfig
  read
    | .scan => ScanConfig.read
    | .page => PageConfig.read
  get
    | .scan, g => g.scan
    | .page, g => g.page
  set
    | .scan, v, g => { g with scan := some v }
    | .page, v, g => { g with page := some v }
  get_set := by rintro (_ | _) v g <;> rfl
  get_set_of_ne := by rintro (_ | _) (_ | _) v g h <;> first | rfl | exact absurd rfl h
  ext := by
    rintro ⟨_, _⟩ ⟨_, _⟩ h
    cases h .scan
    cases h .page
    rfl

theorem fields_eq : fields = layout.fields := rfl

def kind : (k : Key) → Kind (layout.Value k)
  | .scan => ScanConfig.IsSection
  | .page => PageConfig.IsSection

/-- Settings are given by the members of an object: each section has the values of the member of
its name, or its defaults. -/
@[mk_iff]
structure IsGivenBy (c : Config) (members : List (String × Document)) : Prop where
  scan : Gives members "scan" ScanConfig.IsSection {} c.scan
  page : Gives members "page" PageConfig.IsSection {} c.page

/-- The sections of some members are objects in which each known field is given at most once. -/
structure HasSections (members : List (String × Document)) : Prop where
  scan_once : AtMostOnce "scan" members
  page_once : AtMostOnce "page" members
  scan : ∀ d, ("scan", d) ∈ members →
    ∃ fields, d = .object fields ∧ ∀ name ∈ ScanConfig.fieldNames, AtMostOnce name fields
  page : ∀ d, ("page", d) ∈ members →
    ∃ fields, d = .object fields ∧ AtMostOnce "strategy" fields

/-- A text is read as the settings that the members of its object give. -/
theorem ofText_eq_ok_iff {text : String} {members : List (String × Document)}
    (htext : (Document.object members).Spells text.toList) (h : HasSections members)
    (c : Config) : ofText text = .ok c ↔ c.IsGivenBy members := by
  have honce : ∀ k, AtMostOnce (layout.name k) members := by
    rintro (_ | _)
    · exact h.scan_once
    · exact h.page_once
  have hempty : ∀ k, layout.get k {} = none := by rintro (_ | _) <;> rfl
  have hkind : ∀ k, ∀ m ∈ members, m.1 = layout.name k → Reads (layout.read k) (kind k) m.2 := by
    rintro (_ | _) ⟨name, d⟩ hm heq
    · obtain rfl : name = "scan" := heq
      obtain ⟨fields, rfl, honce⟩ := h.scan d hm
      exact ScanConfig.reads honce
    · obtain rfl : name = "page" := heq
      obtain ⟨fields, rfl, honce⟩ := h.page d hm
      exact PageConfig.reads honce
  have hobject : Reads (readStruct "Config" fields {}) (layout.IsObject kind) (.object members) :=
    fields_eq ▸ Layout.reads hempty honce hkind "Config"
  have hread : Reads read _ (.object members) := hobject.map fun g : Given =>
    (⟨g.scan.getD {}, g.page.getD {}⟩ : Config)
  rw [ofText, readWhole_eq_ok_iff hread htext]
  constructor
  · rintro ⟨g, hg, rfl⟩
    have hkeys := Layout.isObject_object.1 hg
    exact ⟨gives_iff.2 ⟨_, hkeys .scan, rfl⟩, gives_iff.2 ⟨_, hkeys .page, rfl⟩⟩
  · rintro ⟨hscan, hpage⟩
    obtain ⟨scan, hscan, hs⟩ := gives_iff.1 hscan
    obtain ⟨page, hpage, hp⟩ := gives_iff.1 hpage
    refine ⟨⟨scan, page⟩, Layout.isObject_object.2 ?_, by rw [hs, hp]⟩
    rintro (_ | _)
    · exact hscan
    · exact hpage

/-- The sections of a name in two objects have the same members of some names, perhaps in
another order, or there is none in either. -/
def SameSection (name : String) (fieldNames : List String)
    (members members' : List (String × Document)) : Prop :=
  Option.Rel (fun d d' => ∃ fields fields', d = .object fields ∧ d' = .object fields' ∧
    SameMembers fieldNames fields fields') (members.lookup name) (members'.lookup name)

/-- Sections with the same members of known names stand for the same. -/
theorem SameSection.gives_iff {α : Type} {name : String} {fieldNames : List String}
    {members members' : List (String × Document)}
    (h : SameSection name fieldNames members members') (honce : AtMostOnce name members)
    {kind : Kind α} {default a : α}
    (hkind : ∀ fields fields', (name, .object fields) ∈ members →
      SameMembers fieldNames fields fields' →
        (kind (.object fields') a ↔ kind (.object fields) a)) :
    Gives members' name kind default a ↔ Gives members name kind default a := by
  rw [Gives, Gives]
  rw [SameSection] at h
  generalize hlookup : members.lookup name = d? at h ⊢
  generalize members'.lookup name = d?' at h ⊢
  cases h with
  | none => rfl
  | some h =>
    obtain ⟨fields, fields', rfl, rfl, hsame⟩ := h
    exact hkind fields fields' (honce.lookup_eq_some_iff.1 hlookup) hsame

/-- Objects that give settings. -/
theorem exists_isGivenBy_iff {members : List (String × Document)} (h : HasSections members) :
    (∃ c : Config, c.IsGivenBy members) ↔
      (∀ fields, ("scan", .object fields) ∈ members → ScanConfig.Fits fields) ∧
      ∀ fields, ("page", .object fields) ∈ members →
        ∀ d, ("strategy", d) ∈ fields → ∃ s : Strategy, s.IsGivenBy d := by
  constructor
  · rintro ⟨c, hscan, hpage⟩
    have hscans := h.scan_once.exists_gives_iff.1 ⟨_, hscan⟩
    have hpages := h.page_once.exists_gives_iff.1 ⟨_, hpage⟩
    refine ⟨fun fields hmem => ?_, fun fields hmem => ?_⟩
    · obtain ⟨_, heq, honce⟩ := h.scan _ hmem
      obtain rfl := Document.object.inj heq
      exact (ScanConfig.exists_isSection_iff honce).1 (hscans _ hmem)
    · obtain ⟨_, heq, honce⟩ := h.page _ hmem
      obtain rfl := Document.object.inj heq
      exact (PageConfig.exists_isSection_iff honce).1 (hpages _ hmem)
  · rintro ⟨hscan, hpage⟩
    obtain ⟨scan, hscan⟩ := (h.scan_once.exists_gives_iff (α := ScanConfig)).2 fun d hmem => by
      obtain ⟨fields, rfl, honce⟩ := h.scan d hmem
      exact (ScanConfig.exists_isSection_iff honce).2 (hscan fields hmem)
    obtain ⟨page, hpage⟩ := (h.page_once.exists_gives_iff (α := PageConfig)).2 fun d hmem => by
      obtain ⟨fields, rfl, honce⟩ := h.page d hmem
      exact (PageConfig.exists_isSection_iff honce).2 (hpage fields hmem)
    exact ⟨⟨scan, page⟩, hscan, hpage⟩

/-- Settings do not depend on the order of the members, and not on unknown members. -/
theorem isGivenBy_congr {members members' : List (String × Document)} (h : HasSections members)
    (hscan : SameSection "scan" ScanConfig.fieldNames members members')
    (hpage : SameSection "page" ["strategy"] members members') (c : Config) :
    c.IsGivenBy members' ↔ c.IsGivenBy members := by
  have hscan' : ∀ fields fields', ("scan", Document.object fields) ∈ members →
      SameMembers ScanConfig.fieldNames fields fields' →
        (ScanConfig.IsSection (.object fields') c.scan ↔
          ScanConfig.IsSection (.object fields) c.scan) := by
    intro fields fields' hmem hsame
    obtain ⟨_, heq, honce⟩ := h.scan _ hmem
    obtain rfl := Document.object.inj heq
    rw [ScanConfig.isSection_object, ScanConfig.isSection_object,
      ScanConfig.isGivenBy_congr honce hsame]
  have hpage' : ∀ fields fields', ("page", Document.object fields) ∈ members →
      SameMembers ["strategy"] fields fields' →
        (PageConfig.IsSection (.object fields') c.page ↔
          PageConfig.IsSection (.object fields) c.page) := by
    intro fields fields' hmem hsame
    obtain ⟨_, heq, honce⟩ := h.page _ hmem
    obtain rfl := Document.object.inj heq
    rw [PageConfig.isSection_object, PageConfig.isSection_object,
      PageConfig.isGivenBy_congr honce hsame]
  rw [isGivenBy_iff, isGivenBy_iff, hscan.gives_iff h.scan_once hscan',
    hpage.gives_iff h.page_once hpage']

/-- **The format of settings.** If the sections of an object are objects in which each known field
is given at most once, then it is accepted if and only if each known field that is there has a
value of its type. The settings have the values that are there, and defaults otherwise, and
neither the order of the members nor unknown members of any level matter. -/
theorem ofText_keeps_defaults {text : String} {members : List (String × Document)}
    (htext : (Document.object members).Spells text.toList) (h : HasSections members) :
    ((∃ c, ofText text = .ok c) ↔
      (∀ fields, ("scan", .object fields) ∈ members → ScanConfig.Fits fields) ∧
      ∀ fields, ("page", .object fields) ∈ members →
        ∀ d, ("strategy", d) ∈ fields → ∃ s : Strategy, s.IsGivenBy d) ∧
    (∀ c, ofText text = .ok c → c.IsGivenBy members) ∧
    ∀ (text' : String) (members' : List (String × Document)),
      (Document.object members').Spells text'.toList → HasSections members' →
      SameSection "scan" ScanConfig.fieldNames members members' →
      SameSection "page" ["strategy"] members members' →
      (ofText text').toOption = (ofText text).toOption := by
  have hof := ofText_eq_ok_iff htext h
  refine ⟨?_, fun c => (hof c).1, fun text' members' htext' h' hscan hpage => ?_⟩
  · simp only [hof, exists_isGivenBy_iff h]
  · apply toOption_eq_of_iff
    intro c
    rw [ofText_eq_ok_iff htext' h', hof, isGivenBy_congr h hscan hpage]

def seven : Written := ⟨false, ['7'], none, none⟩

/-- The members of settings with a limit and an unknown field. -/
def oneLimit : List (String × Document) :=
  [("scan", .object [("max_file_bytes", .number seven), ("unknown", .null)])]

theorem spells_oneLimit : (Document.object oneLimit).Spells
    "\x7b\"scan\":\x7b\"max_file_bytes\":7,\"unknown\":null\x7d\x7d".toList := by
  have hseven : seven.Spells ['7'] :=
    .mk .none ⟨by decide, by decide, by decide⟩ .none .none
  have hscan : (Document.object [("max_file_bytes", .number seven), ("unknown", .null)]).Spells
      "\x7b\"max_file_bytes\":7,\"unknown\":null\x7d".toList :=
    @Document.Spells.object
      [⟨⟨_, ['7']⟩, "max_file_bytes", "\"max_file_bytes\"".toList⟩,
        ⟨⟨_, "null".toList⟩, "unknown", "\"unknown\"".toList⟩] (by simp)
      (List.forall_mem_cons.2 ⟨Document.spells_plain (by decide),
        List.forall_mem_singleton.2 (Document.spells_plain (by decide))⟩)
      (List.forall_mem_cons.2 ⟨.number hseven, List.forall_mem_singleton.2 .null⟩)
  exact @Document.Spells.object [⟨⟨_, _⟩, "scan", "\"scan\"".toList⟩] (by simp)
    (List.forall_mem_singleton.2 (Document.spells_plain (by decide)))
    (List.forall_mem_singleton.2 hscan)

theorem hasSections_oneLimit : HasSections oneLimit where
  scan_once := by decide
  page_once := by decide
  scan d hd := by
    obtain rfl : d = .object [("max_file_bytes", .number seven), ("unknown", .null)] := by
      simpa [oneLimit] using hd
    exact ⟨_, rfl, by decide⟩
  page d hd := by simp [oneLimit] at hd

theorem ofText_keeps_oneLimit :
    ∃ c, ofText "\x7b\"scan\":\x7b\"max_file_bytes\":7,\"unknown\":null\x7d\x7d" = .ok c ∧
      c.IsGivenBy oneLimit := by
  have h := ofText_keeps_defaults spells_oneLimit hasSections_oneLimit
  have hscan : ∀ fields, ("scan", .object fields) ∈ oneLimit → ScanConfig.Fits fields := by
    intro fields hfields
    obtain rfl : fields = [("max_file_bytes", .number seven), ("unknown", .null)] := by
      simpa [oneLimit] using hfields
    exact ⟨by simp, by simp, by simp, by simpa using ⟨7, seven, rfl, by decide⟩⟩
  have hpage : ∀ fields, ("page", .object fields) ∈ oneLimit →
      ∀ d, ("strategy", d) ∈ fields → ∃ s : Strategy, s.IsGivenBy d := by
    simp [oneLimit]
  obtain ⟨c, hc⟩ := h.1.2 ⟨hscan, hpage⟩
  exact ⟨c, hc, h.2.1 c hc⟩

end Config

end ScriptInventory
