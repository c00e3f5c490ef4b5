/-
# Units of columns

Editors count columns in the units of some encoding of the text. A character is
always at least one unit wide, and only the width matters here: no text is ever
stored in encoded form.
-/

namespace CodeInsight

/-- The encoding whose units a column counts. -/
inductive ColumnEncoding where
  /-- Bytes of UTF-8. -/
  | utf8
  /-- Code units of UTF-16, the unit used unless another one was agreed on. -/
  | utf16
  /-- Characters. -/
  | utf32
  deriving DecidableEq, Repr

namespace ColumnEncoding

instance : Inhabited ColumnEncoding := ⟨utf16⟩

/-- The agreed name of an encoding. -/
def name : ColumnEncoding → String
  | utf8 => "utf-8"
  | utf16 => "utf-16"
  | utf32 => "utf-32"

/-- Only the three agreed names, spelled exactly, denote an encoding. -/
def ofName? (name : String) : Option ColumnEncoding :=
  [utf8, utf16, utf32].find? (·.name == name)

theorem ofName?_name (e : ColumnEncoding) : ofName? e.name = some e := by
  cases e <;> decide

/-- The number of units that a character occupies. -/
def width : ColumnEncoding → Char → Nat
  | utf8, c => c.utf8Size
  | utf16, c => if c.val < 0x10000 then 1 else 2
  | utf32, _ => 1

theorem width_pos (e : ColumnEncoding) (c : Char) : 0 < e.width c := by
  cases e with
  | utf8 => exact c.utf8Size_pos
  | utf16 => simp only [width]; split <;> decide
  | utf32 => exact Nat.one_pos

/-- The number of units that a run of characters occupies. -/
def lengthOf (e : ColumnEncoding) (text : List Char) : Nat :=
  text.foldr (fun c units => e.width c + units) 0

@[simp]
theorem lengthOf_nil (e : ColumnEncoding) : e.lengthOf [] = 0 := rfl

@[simp]
theorem lengthOf_cons (e : ColumnEncoding) (c : Char) (rest : List Char) :
    e.lengthOf (c :: rest) = e.width c + e.lengthOf rest := rfl

theorem lengthOf_append (e : ColumnEncoding) (text rest : List Char) :
    e.lengthOf (text ++ rest) = e.lengthOf text + e.lengthOf rest := by
  induction text with
  | nil => simp
  | cons c text ih => simp [ih, Nat.add_assoc]

end ColumnEncoding

end CodeInsight
