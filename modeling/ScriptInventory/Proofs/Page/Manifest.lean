import ScriptInventory.Page.Manifest
import ScriptInventory.Proofs.Dictionary
import ScriptInventory.Proofs.Json.Structure

/-!
# The format of page manifests

Which JSON objects are manifests, and which manifests they are. Main statement: if the scripts
and the globals are each given at most once, an object is accepted if and only if they have
their form, and the manifest has them; other members, and the order of the members, are of no
account (`PageManifest.ofText_accepts_format`).
-/

namespace ScriptInventory

open Json

/-! ## Parts of a manifest -/

/-- The document of a script: an object that says whether it has an address or a text. -/
def ScriptReference.document : ScriptReference → Document
  | .url address => .object [("url", .string address)]
  | .inline text => .object [("inline", .string text)]

theorem ScriptReference.document_injective : Function.Injective ScriptReference.document := by
  rintro (_ | _) (_ | _) h <;> simp_all [ScriptReference.document]

/-- A script is read from its document and from no other. -/
theorem ScriptReference.reads (d : Document) :
    Reads ScriptReference.read (fun d r => d = r.document) d := by
  have hcontent : ∀ content (make : String → ScriptReference),
      Reads (fun i => (readText i).map fun p => (make p.1, p.2))
        (fun d r => ∃ s, d = .string s ∧ make s = r) content :=
    fun content make => (reads_text content).map make
  refine (reads_variant (fun name d r => .object [(name, d)] = r.document) ?_).congr ?_
  · refine List.forall_mem_cons.2 ⟨fun content => ?_, List.forall_mem_singleton.2 fun content => ?_⟩
    · refine (hcontent content .url).congr fun r => ?_
      cases r <;> simp [ScriptReference.document, eq_comm]
    · refine (hcontent content .inline).congr fun r => ?_
      cases r <;> simp [ScriptReference.document, eq_comm]
  · intro r
    constructor
    · rintro (⟨name, v, -, hv, halone⟩ | ⟨name, content, v, rfl, -, h⟩)
      · -- no script is given by a name alone
        rcases List.mem_pair.1 (List.mem_of_find?_eq_some hv) with rfl | rfl <;> cases halone
      · exact h
    · rintro rfl
      cases r with
      | url address => exact .inr ⟨"url", .string address, _, rfl, rfl, rfl⟩
      | inline text => exact .inr ⟨"inline", .string text, _, rfl, rfl, rfl⟩

/-- A snapshot is given by an object of texts, in which the last one of a name counts. -/
def TypeSnapshot.IsGivenBy (snapshot : TypeSnapshot) (d : Document) : Prop :=
  ∃ members, d = .object members ∧ (∀ m ∈ members, ∃ type, m.2 = .string type) ∧
    ∀ name, (snapshot.types.get? name).map Document.string = members.reverse.lookup name

theorem lookup_map {α β : Type} (f : α → β) (entries : List (String × α)) (name : String) :
    (entries.map fun e => (e.1, f e.2)).lookup name = (entries.lookup name).map f := by
  induction entries with
  | nil => rfl
  | cons e rest ih =>
    rw [List.map_cons, List.lookup_cons, List.lookup_cons]
    cases name == e.1
    · exact ih
    · rfl

/-- Members with texts. -/
theorem forall₂_isText_iff {members : List (String × Document)} {entries : List (String × String)} :
    List.Forall₂ (fun m e => m.1 = e.1 ∧ IsText m.2 e.2) members entries ↔
      members = entries.map fun e => (e.1, .string e.2) := by
  rw [← List.forall₂_eq_eq_eq, List.forall₂_map_right_iff]
  simp only [IsText, Prod.ext_iff]

/-- Members whose values are texts are those of some entries. -/
theorem exists_textEntries {members : List (String × Document)}
    (h : ∀ m ∈ members, ∃ type, m.2 = .string type) :
    ∃ entries : List (String × String), entries.map (fun e => (e.1, .string e.2)) = members := by
  have hrange : members ∈ Set.range
      (List.map fun e : String × String => (e.1, Document.string e.2)) := by
    rw [Set.range_list_map]
    rintro ⟨name, value⟩ hm
    obtain ⟨type, rfl⟩ := h _ hm
    exact ⟨(name, type), rfl⟩
  exact hrange

namespace TypeSnapshot

/-- The snapshot of some entries, and no other, is given by an object with these entries. -/
theorem isGivenBy_iff {snapshot : TypeSnapshot} {entries : List (String × String)} :
    snapshot.IsGivenBy (.object (entries.map fun e => (e.1, .string e.2))) ↔
      snapshot = ⟨.ofList entries⟩ := by
  have hlookup : ∀ name, (entries.map fun e => (e.1, Document.string e.2)).reverse.lookup name =
      ((Dictionary.ofList entries).get? name).map Document.string := by
    intro name
    rw [← List.map_reverse, lookup_map, Dictionary.get?_ofList]
  constructor
  · rintro ⟨members, heq, -, hvalues⟩
    obtain rfl := Document.object.inj heq
    obtain ⟨types⟩ := snapshot
    congr 1
    apply Dictionary.eq_of_get?
    intro name
    apply Option.map_injective fun _ _ => Document.string.inj
    rw [hvalues, hlookup]
  · rintro rfl
    refine ⟨_, rfl, fun m hm => ?_, fun name => (hlookup name).symm⟩
    obtain ⟨e, -, rfl⟩ := List.mem_map.1 hm
    exact ⟨e.2, rfl⟩

theorem reads (d : Document) :
    Reads TypeSnapshot.read (fun d snapshot => snapshot.IsGivenBy d) d := by
  have hmap : Reads (readMap readText) (IsMap IsText) d := reads_map fun _ _ m _ => reads_text m.2
  refine (hmap.map fun entries => (⟨.ofList entries⟩ : TypeSnapshot)).congr fun snapshot => ?_
  constructor
  · rintro ⟨entries, ⟨members, rfl, hentries⟩, rfl⟩
    obtain rfl := forall₂_isText_iff.1 hentries
    exact isGivenBy_iff.2 rfl
  · intro h
    have ⟨members, heq, htexts, _⟩ := h
    subst heq
    obtain ⟨entries, rfl⟩ := exists_textEntries htexts
    exact ⟨entries, ⟨_, rfl, forall₂_isText_iff.2 rfl⟩, (isGivenBy_iff.1 h).symm⟩

end TypeSnapshot

namespace PageManifest

/-- The fields of a manifest. -/
inductive Key where
  | scripts
  | globals

/-- The fields of a manifest in its state. -/
def layout : Layout Given where
  Key := Key
  keys := [.scripts, .globals]
  mem_keys := by rintro (_ | _) <;> simp
  name
    | .scripts => "scripts"
    | .globals => "globals"
  name_injective := by rintro (_ | _) (_ | _) h <;> first | rfl | exact absurd h (by decide)
  Value
    | .scripts => List ScriptReference
    | .globals => Option TypeSnapshot
  read
    | .scripts => readList ScriptReference.read
    | .globals => readOptional TypeSnapshot.read
  get
    | .scripts, g => g.scripts
    | .globals, g => g.globals
  set
    | .scripts, v, g => { g with scripts := some v }
    | .globals, v, g => { g with globals := some v }
  get_set := by rintro (_ | _) v g <;> rfl
  get_set_of_ne := by rintro (_ | _) (_ | _) v g h <;> first | rfl | exact absurd rfl h
  ext := by
    rintro ⟨_, _⟩ ⟨_, _⟩ h
    have hscripts := h .scripts
    have hglobals := h .globals
    cases hscripts
    cases hglobals
    rfl

theorem fields_eq : fields = layout.fields := rfl

/-- What the fields of a manifest are given by. -/
def kind : (k : Key) → Kind (layout.Value k)
  | .scripts => fun d scripts => d = .array (scripts.map ScriptReference.document)
  | .globals => IsOptional fun d snapshot => snapshot.IsGivenBy d

/-- A manifest is given by the members of an object: it has the scripts of one member and the
snapshot of another, as far as these are there. -/
structure IsGivenBy (m : PageManifest) (members : List (String × Document)) : Prop where
  scripts : Gives members "scripts"
    (fun d scripts => d = .array (scripts.map ScriptReference.document)) [] m.scripts
  globals : Gives members "globals"
    (IsOptional fun d snapshot => snapshot.IsGivenBy d) none m.globals

theorem kind_reads (k : Key) (d : Document) : Reads (layout.read k) (kind k) d := by
  cases k with
  | globals => exact reads_optional (TypeSnapshot.reads d)
  | scripts =>
    have hlist : Reads (readList ScriptReference.read) (IsList fun d r => d = r.document) d :=
      reads_list fun _ _ item _ => ScriptReference.reads item
    exact hlist.congr fun _ => isList_eq_iff

/-- A text is read as the manifest that the members of its object give. -/
theorem ofText_eq_ok_iff {text : String} {members : List (String × Document)}
    (htext : (Document.object members).Spells text.toList)
    (hscripts : AtMostOnce "scripts" members) (hglobals : AtMostOnce "globals" members)
    (m : PageManifest) : ofText text = .ok m ↔ m.IsGivenBy members := by
  have honce : ∀ k, AtMostOnce (layout.name k) members := by
    rintro (_ | _)
    · exact hscripts
    · exact hglobals
  have hempty : ∀ k, layout.get k {} = none := by rintro (_ | _) <;> rfl
  have hobject : Reads (readStruct "PageManifest" fields {}) (layout.IsObject kind)
      (.object members) :=
    fields_eq ▸ Layout.reads hempty honce (fun k m _ _ => kind_reads k m.2) "PageManifest"
  have hread : Reads read _ (.object members) := hobject.map fun g : Given =>
    (⟨g.scripts.getD [], g.globals.getD none⟩ : PageManifest)
  rw [ofText, readWhole_eq_ok_iff hread htext]
  constructor
  · rintro ⟨g, hg, rfl⟩
    have hkeys := Layout.isObject_object.1 hg
    exact ⟨gives_iff.2 ⟨_, hkeys .scripts, rfl⟩, gives_iff.2 ⟨_, hkeys .globals, rfl⟩⟩
  · rintro ⟨hscripts, hglobals⟩
    obtain ⟨scripts, hscripts, hgiven⟩ := gives_iff.1 hscripts
    obtain ⟨globals, hglobals, hgiven'⟩ := gives_iff.1 hglobals
    refine ⟨⟨scripts, globals⟩, Layout.isObject_object.2 ?_, by rw [hgiven, hgiven']⟩
    rintro (_ | _)
    · exact hscripts
    · exact hglobals

/-- Documents of lists of scripts. -/
theorem exists_scripts_iff {d : Document} :
    (∃ scripts : List ScriptReference, d = .array (scripts.map ScriptReference.document)) ↔
      ∃ items, d = .array items ∧ ∀ item ∈ items,
        ∃ name s, (name = "url" ∨ name = "inline") ∧ item = .object [(name, .string s)] := by
  have hrange : ∀ item : Document,
      (∃ name s, (name = "url" ∨ name = "inline") ∧ item = .object [(name, .string s)]) ↔
        item ∈ Set.range ScriptReference.document := by
    intro item
    constructor
    · rintro ⟨name, s, rfl | rfl, rfl⟩
      · exact ⟨.url s, rfl⟩
      · exact ⟨.inline s, rfl⟩
    · rintro ⟨r, rfl⟩
      cases r with
      | url address => exact ⟨"url", address, .inl rfl, rfl⟩
      | inline text => exact ⟨"inline", text, .inr rfl, rfl⟩
  simp only [hrange]
  constructor
  · rintro ⟨scripts, rfl⟩
    exact ⟨_, rfl, fun item hitem => by
      obtain ⟨r, -, rfl⟩ := List.mem_map.1 hitem
      exact ⟨r, rfl⟩⟩
  · rintro ⟨items, rfl, hitems⟩
    obtain ⟨scripts, rfl⟩ : items ∈ Set.range (List.map ScriptReference.document) := by
      rw [Set.range_list_map]
      exact hitems
    exact ⟨scripts, rfl⟩

/-- Documents of globals. -/
theorem exists_globals_iff {d : Document} :
    (∃ globals, IsOptional (fun d (snapshot : TypeSnapshot) => snapshot.IsGivenBy d) d globals) ↔
      d = .null ∨ ∃ entries, d = .object entries ∧ ∀ e ∈ entries, ∃ type, e.2 = .string type := by
  constructor
  · rintro ⟨globals, ⟨rfl, -⟩ | ⟨-, snapshot, ⟨entries, rfl, htexts, -⟩, -⟩⟩
    · exact .inl rfl
    · exact .inr ⟨entries, rfl, htexts⟩
  · rintro (rfl | ⟨entries, rfl, htexts⟩)
    · exact ⟨none, .inl ⟨rfl, rfl⟩⟩
    · obtain ⟨entries, rfl⟩ := exists_textEntries htexts
      exact ⟨_, .inr ⟨by simp, _, TypeSnapshot.isGivenBy_iff.2 rfl, rfl⟩⟩

/-- The names of the members that a manifest is made of. -/
def fieldNames : List String := ["scripts", "globals"]

/-- **The format of manifests.** An object in which the scripts and the globals are given at
most once is accepted if and only if the scripts are left out or are a list of objects with one
member each, which is an address or a text, and the globals are left out, are `null` or are an
object of texts. The manifest is then the one that these members give, and neither their order
nor other members matter. -/
theorem ofText_accepts_format {text : String} {members : List (String × Document)}
    (htext : (Document.object members).Spells text.toList)
    (hscripts : AtMostOnce "scripts" members) (hglobals : AtMostOnce "globals" members) :
    ((∃ m, ofText text = .ok m) ↔
      (∀ d, ("scripts", d) ∈ members → ∃ items, d = .array items ∧ ∀ item ∈ items,
        ∃ name s, (name = "url" ∨ name = "inline") ∧ item = .object [(name, .string s)]) ∧
      ∀ d, ("globals", d) ∈ members → d = .null ∨
        ∃ entries, d = .object entries ∧ ∀ e ∈ entries, ∃ type, e.2 = .string type) ∧
    (∀ m, ofText text = .ok m → m.IsGivenBy members) ∧
    ∀ (text' : String) (members' : List (String × Document)),
      (Document.object members').Spells text'.toList → SameMembers fieldNames members members' →
      (ofText text').toOption = (ofText text).toOption := by
  have hof := ofText_eq_ok_iff htext hscripts hglobals
  refine ⟨?_, fun m => (hof m).1, fun text' members' htext' hsame => ?_⟩
  · -- scripts and globals are given independently of each other
    have hgives : (∃ m, ofText text = .ok m) ↔
        (∃ scripts, Gives members "scripts"
          (fun d scripts => d = .array (scripts.map ScriptReference.document)) [] scripts) ∧
        ∃ globals, Gives members "globals"
          (IsOptional fun d (snapshot : TypeSnapshot) => snapshot.IsGivenBy d) none globals := by
      simp only [hof]
      constructor
      · rintro ⟨m, hm⟩
        exact ⟨⟨_, hm.scripts⟩, ⟨_, hm.globals⟩⟩
      · rintro ⟨⟨scripts, hs⟩, ⟨globals, hg⟩⟩
        exact ⟨⟨scripts, globals⟩, hs, hg⟩
    rw [hgives, hscripts.exists_gives_iff, hglobals.exists_gives_iff]
    simp only [exists_scripts_iff, exists_globals_iff]
  · have hscripts' := hsame.atMostOnce (by decide) hscripts
    have hglobals' := hsame.atMostOnce (by decide) hglobals
    apply toOption_eq_of_iff
    intro m
    rw [ofText_eq_ok_iff htext' hscripts' hglobals', hof]
    constructor
    · rintro ⟨hs, hg⟩
      exact ⟨(hsame.gives_iff (by decide) hscripts).1 hs,
        (hsame.gives_iff (by decide) hglobals).1 hg⟩
    · rintro ⟨hs, hg⟩
      exact ⟨(hsame.gives_iff (by decide) hscripts).2 hs,
        (hsame.gives_iff (by decide) hglobals).2 hg⟩

/-- No character of a text needs an escape. -/
def IsPlain (text : String) : Prop :=
  ∀ c ∈ text.toList, c ≠ '"' ∧ c ≠ '\\' ∧ 0x20 ≤ c.toNat

instance (text : String) : Decidable (IsPlain text) :=
  inferInstanceAs (Decidable (∀ c ∈ text.toList, _))

/-- A member that is a text, where neither its name nor the text needs escapes. -/
def textMember (m : String × String) : MemberText :=
  ⟨⟨.string m.2, '"' :: (m.2.toList ++ ['"'])⟩, m.1, '"' :: (m.1.toList ++ ['"'])⟩

/-- An object of such members. -/
theorem spells_textMembers {members : List (String × String)} (hne : members ≠ [])
    (h : ∀ m ∈ members, IsPlain m.1 ∧ IsPlain m.2) :
    (Document.object (members.map fun m => (m.1, .string m.2))).Spells
      ('{' :: (separated (members.map fun m => (textMember m).whole) ++ ['}'])) := by
  have hobject := @Document.Spells.object (members.map textMember) (by simpa using hne)
    (List.forall_mem_map.2 fun m hm => Document.spells_plain (h m hm).1)
    (List.forall_mem_map.2 fun m hm => Document.spells_plain (h m hm).2)
  rwa [List.map_map, List.map_map] at hobject

/-- The members of a manifest that gives a global twice and has members of another name in
front and behind. -/
def crowded : List (String × Document) :=
  [("page", .null),
    ("globals", .object [("a", .string "T"), ("b", .string "U"), ("a", .string "V")]),
    ("scripts", .array [.object [("url", .string "/a.js")], .object [("inline", .string "1")]]),
    ("page", .array [])]

def crowdedText : String :=
  "\x7b\"page\":null,\"globals\":\x7b\"a\":\"T\",\"b\":\"U\",\"a\":\"V\"\x7d," ++
    "\"scripts\":[\x7b\"url\":\"/a.js\"\x7d,\x7b\"inline\":\"1\"\x7d],\"page\":[]\x7d"

theorem spells_crowded : (Document.object crowded).Spells crowdedText.toList := by
  have hglobals := @spells_textMembers [("a", "T"), ("b", "U"), ("a", "V")] (by simp) (by decide)
  have hscripts := @Document.Spells.array [⟨_, _⟩, ⟨_, _⟩] (by simp) (List.forall_mem_cons.2
    ⟨@spells_textMembers [("url", "/a.js")] (by simp) (by decide), List.forall_mem_singleton.2
      (@spells_textMembers [("inline", "1")] (by simp) (by decide))⟩)
  have hpage : (Document.array []).Spells "[]".toList := @Document.Spells.emptyArray [] (by simp)
  exact @Document.Spells.object
    [⟨⟨.null, "null".toList⟩, "page", "\"page\"".toList⟩,
      ⟨⟨_, _⟩, "globals", "\"globals\"".toList⟩, ⟨⟨_, _⟩, "scripts", "\"scripts\"".toList⟩,
      ⟨⟨.array [], "[]".toList⟩, "page", "\"page\"".toList⟩] (by simp)
    (List.forall_mem_cons.2 ⟨Document.spells_plain (by decide), List.forall_mem_cons.2
      ⟨Document.spells_plain (by decide), List.forall_mem_cons.2
      ⟨Document.spells_plain (by decide), List.forall_mem_singleton.2
      (Document.spells_plain (by decide))⟩⟩⟩)
    (List.forall_mem_cons.2 ⟨.null, List.forall_mem_cons.2 ⟨hglobals, List.forall_mem_cons.2
      ⟨hscripts, List.forall_mem_singleton.2 hpage⟩⟩⟩)

/-- The scripts of the manifest are in their order, and of a global that is given twice the
last type counts. -/
theorem ofText_accepts_crowded :
    ∃ m, ofText crowdedText = .ok m ∧ m.IsGivenBy crowded ∧
      m.scripts = [.url "/a.js", .inline "1"] ∧
      m.globals = some ⟨.ofList [("a", "V"), ("b", "U")]⟩ := by
  have h := ofText_accepts_format spells_crowded (by decide) (by decide)
  have hscripts : ∀ d, ("scripts", d) ∈ crowded → ∃ items, d = .array items ∧ ∀ item ∈ items,
      ∃ name s, (name = "url" ∨ name = "inline") ∧ item = .object [(name, .string s)] := by
    simp [crowded]
  have hglobals : ∀ d, ("globals", d) ∈ crowded → d = .null ∨
      ∃ entries, d = .object entries ∧ ∀ e ∈ entries, ∃ type, e.2 = .string type := by
    intro d hd
    obtain rfl : d = .object [("a", .string "T"), ("b", .string "U"), ("a", .string "V")] := by
      simpa [crowded] using hd
    exact .inr ⟨_, rfl, by simp⟩
  obtain ⟨m, hm⟩ := h.1.2 ⟨hscripts, hglobals⟩
  have hgiven := h.2.1 m hm
  refine ⟨m, hm, hgiven, ?_, ?_⟩
  · have heq : Document.array ([.url "/a.js", .inline "1"].map ScriptReference.document) =
        .array (m.scripts.map ScriptReference.document) := hgiven.scripts
    exact (ScriptReference.document_injective.list_map (Document.array.inj heq)).symm
  · rcases hgiven.globals with ⟨hnull, -⟩ | ⟨-, snapshot, hsnapshot, hm'⟩
    · cases hnull
    · rw [hm', (@TypeSnapshot.isGivenBy_iff snapshot
        [("a", "T"), ("b", "U"), ("a", "V")]).1 hsnapshot]
      rfl

end PageManifest

end ScriptInventory
