/-
# Positions in a text

A position names a place by line and column, both counted from zero. The column
is counted in whatever unit the editor and the library agreed on, so a position
alone does not determine a character: a line table does.
-/

namespace CodeInsight

/-- A place in a text: a line and a column on that line, both counted from zero. -/
structure Position where
  line : UInt32
  character : UInt32
  deriving DecidableEq, Repr

namespace Position

/-- The very start of a text. -/
def origin : Position := ⟨0, 0⟩

instance : Inhabited Position := ⟨origin⟩

/-- Positions are ordered by line first and by column within a line. -/
instance : LT Position :=
  ⟨fun a b => a.line < b.line ∨ a.line = b.line ∧ a.character < b.character⟩

instance : LE Position :=
  ⟨fun a b => a.line < b.line ∨ a.line = b.line ∧ a.character ≤ b.character⟩

instance (a b : Position) : Decidable (a < b) :=
  inferInstanceAs (Decidable (a.line < b.line ∨ a.line = b.line ∧ a.character < b.character))

instance (a b : Position) : Decidable (a ≤ b) :=
  inferInstanceAs (Decidable (a.line < b.line ∨ a.line = b.line ∧ a.character ≤ b.character))

instance : Ord Position :=
  ⟨fun a b => (compare a.line b.line).then (compare a.character b.character)⟩

/-- The readable form of a position: line, colon, column. -/
def render (p : Position) : String :=
  toString p.line.toNat ++ ":" ++ toString p.character.toNat

end Position

end CodeInsight
