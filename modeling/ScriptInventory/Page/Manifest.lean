import ScriptInventory.GlobalScope

/-!
# Page manifests

A manifest lists the scripts of a page and, where they were captured, the names that
the page defines. It is a JSON object in which anything may be left out.
-/

namespace ScriptInventory

/-- A script of a page. -/
inductive ScriptReference where
  /-- A script that has to be fetched. -/
  | url (address : String)
  /-- A script whose text stands in the page. -/
  | inline (text : String)
deriving DecidableEq, Repr, Inhabited

def ScriptReference.read : Json.Reader ScriptReference :=
  let withText (name : String) (make : String → ScriptReference) :
      Json.Variant ScriptReference :=
    ⟨name, fun i => (Json.readText i).map fun (s, i) => (make s, i),
      .error (.invalidType .unitVariant "newtype variant")⟩
  Json.readVariant [withText "url" .url, withText "inline" .inline]

/-- What is known of a page. -/
structure PageManifest where
  scripts : List ScriptReference
  globals : Option TypeSnapshot

namespace PageManifest

/-- A manifest as far as it is given; also the names of a page may be given as
absent. -/
structure Given where
  scripts : Option (List ScriptReference) := none
  globals : Option (Option TypeSnapshot) := none

def fields : List (Json.Field Given) :=
  [⟨"scripts", fun g => g.scripts.isSome, fun g i =>
      (Json.readList ScriptReference.read i).map fun (v, i) => ({ g with scripts := some v }, i)⟩,
    ⟨"globals", fun g => g.globals.isSome, fun g i =>
      (Json.readOptional TypeSnapshot.read i).map fun (v, i) => ({ g with globals := some v }, i)⟩]

def read : Json.Reader PageManifest := fun i =>
  (Json.readStruct "PageManifest" fields {} i).map fun (g, i) =>
    (⟨g.scripts.getD [], g.globals.getD none⟩, i)

def ofText (text : String) : Except Json.Fault PageManifest := Json.readWhole read text

end PageManifest

end ScriptInventory
