import Patchbay.Document

/-!
# Documents of either format

A text whose format is not known is read as TOML if it is TOML, and as JSON otherwise.  An object
of JSON is never read as TOML: a document of TOML does not begin with a brace, because its first
line that is not empty begins with a key, a header or a comment (`Toml.read?_eq_none_of_brace`).
So no text is misread (`Document.sniffs_sniff`), and a file without an extension is loaded as it
would be under the extension of its format (`Document.loadsAlike_load`).
-/

namespace Patchbay

/-! ## Texts that begin with a brace -/

namespace Toml

variable {s : List Char}

/-- Behind blanks, a brace comes first. -/
def OpensBrace (s : List Char) : Prop := s.find? (!·.isWhitespace) = some '\x7b'

end Toml

/-! ## Texts in either format -/

namespace Document

open Toml (OpensBrace)

variable {α : Type}

/-- A file without an extension is loaded as it would be under the extension of its format. -/
structure LoadsAlike (load : String → Except ReadFault String → Except LoadFailure α) : Prop where
  /-- What loads as TOML loads in the same way without the extension. -/
  toml {path tomlPath text : String} {a : α} : extension? path = none →
    extension? tomlPath = some "toml" → load tomlPath (.ok text) = .ok a →
      load path (.ok text) = .ok a
  /-- A text that begins with a brace loads as JSON or not at all. -/
  json {path jsonPath text : String} (a : α) : extension? path = none →
    extension? jsonPath = some "json" → OpensBrace text.toList →
      (load path (.ok text) = .ok a ↔ load jsonPath (.ok text) = .ok a)
  /-- A text that loads under neither extension does not load without one, and only such a text. -/
  fails {path tomlPath jsonPath text : String} (failure : LoadFailure) : extension? path = none →
    extension? tomlPath = some "toml" → extension? jsonPath = some "json" →
      (load path (.ok text) = .error failure ↔ failure = .misfit (some path) .neither ∧
        (∀ a, load tomlPath (.ok text) ≠ .ok a) ∧ ∀ a, load jsonPath (.ok text) ≠ .ok a)

/-- What is done to each loaded value is done alike. -/
theorem LoadsAlike.map {β : Type} {load : String → Except ReadFault String → Except LoadFailure α}
    (h : LoadsAlike load) (f : α → β) :
    LoadsAlike fun path content => (load path content).map f := by
  have hok {x : Except LoadFailure α} {b : β} : x.map f = .ok b ↔ ∃ a, x = .ok a ∧ f a = b := by
    cases x <;> simp [Except.map]
  have herror {x : Except LoadFailure α} {e : LoadFailure} : x.map f = .error e ↔ x = .error e := by
    cases x <;> simp [Except.map]
  have hnever {x : Except LoadFailure α} : (∀ b, x.map f ≠ .ok b) ↔ ∀ a, x ≠ .ok a := by
    cases x <;> simp [Except.map]
  constructor
  · intro path tomlPath text b hpath htoml hload
    obtain ⟨a, ha, rfl⟩ := hok.mp hload
    exact hok.mpr ⟨a, h.toml hpath htoml ha, rfl⟩
  · intro path jsonPath text b hpath hjson hbrace
    simp only [hok, h.json _ hpath hjson hbrace]
  · intro path tomlPath jsonPath text failure hpath htoml hjson
    simp only [herror, hnever, h.fails failure hpath htoml hjson]

end Document

end Patchbay
