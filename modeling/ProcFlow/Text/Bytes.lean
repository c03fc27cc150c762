/-!
# Lengths in bytes

Places in a text are counted in bytes of its UTF-8 form. Lengths add up along a text, so the place of a
piece is the length of all that stands before it.
-/

namespace ProcFlow.Text

def byteLength : List Char → Nat
  | [] => 0
  | c :: rest => c.utf8Size + byteLength rest

theorem byteLength_append (s t : List Char) : byteLength (s ++ t) = byteLength s + byteLength t := by
  induction s with
  | nil => rw [List.nil_append, byteLength, Nat.zero_add]
  | cons c rest ih => rw [List.cons_append, byteLength, byteLength, ih, Nat.add_assoc]

end ProcFlow.Text
