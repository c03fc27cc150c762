import Mathlib.Data.List.TakeWhile
import ProcFlow.Code.Name
/-!
# Names of nodes and of temporaries

The name of a node is a letter and its number, and no two nodes share one. A temporary belongs to a node,
whose number stands in its name right behind the first letters. What follows the number, if anything,
starts with an underscore, so the number can be read back and the node with it: temporaries of different
nodes never have one name.
-/

namespace ProcFlow

/-! ### Names of nodes -/

theorem toDigits_injective : Function.Injective (Nat.toDigits 10) := by
  intro n n' hdigits
  rw [← @Nat.ofDigitChars_ten_toDigits n, hdigits, Nat.ofDigitChars_ten_toDigits]

theorem isDigit_of_mem_repr {n : Nat} {c : Char} (hc : c ∈ n.repr.toList) : c.isDigit = true := by
  rw [Nat.toList_repr] at hc
  exact Nat.isDigit_of_mem_toDigits (by decide) (by decide) hc

theorem ProcId.isAlphanum_of_mem_text {id : ProcId} {c : Char} (hc : c ∈ id.text.toList) :
    c.isAlphanum = true := by
  rw [ProcId.text, String.toList_append, List.mem_append] at hc
  cases hc with
  | inl hc =>
      obtain rfl := List.mem_singleton.mp hc
      rfl
  | inr hc => rw [Char.isAlphanum, isDigit_of_mem_repr hc, Bool.or_true]

theorem ProcId.text_injective : Function.Injective ProcId.text := by
  intro id id' heq
  have hchars := congrArg String.toList heq
  rw [ProcId.text, ProcId.text, String.toList_append, String.toList_append, Nat.toList_repr,
    Nat.toList_repr] at hchars
  exact congrArg ProcId.mk (toDigits_injective (List.append_cancel_left hchars))

namespace Code

/-! ### Names of temporaries -/

/-- A name of a temporary that belongs to a node. -/
inductive IsTemporary (node : ProcId) : String → Prop where
  | outcome : IsTemporary node (nodeVar node)
  | flow (flow : String) : IsTemporary node (flowVar node flow)

theorem toList_nodeVar (node : ProcId) :
    (nodeVar node).toList = ['_', '_', 'n'] ++ Nat.toDigits 10 node.index := by
  rw [nodeVar, String.toList_append, Nat.toList_repr]
  rfl

theorem toList_flowVar (node : ProcId) (flow : String) :
    (flowVar node flow).toList
      = ['_', '_', 'n'] ++ (Nat.toDigits 10 node.index ++ '_' :: (flowSuffix flow).toList) := by
  rw [flowVar, String.toList_append, String.toList_append, toList_nodeVar, List.append_assoc,
    List.append_assoc]
  rfl

/-- The number of the node can be read back from the name of a temporary. -/
theorem IsTemporary.takeWhile_isDigit {node : ProcId} {name : String} (h : IsTemporary node name) :
    (name.toList.drop 3).takeWhile Char.isDigit = Nat.toDigits 10 node.index := by
  have hdigits : ∀ c ∈ Nat.toDigits 10 node.index, c.isDigit = true := fun c hc =>
    Nat.isDigit_of_mem_toDigits (by decide) (by decide) hc
  have hdrop : ∀ rest : List Char, (['_', '_', 'n'] ++ rest).drop 3 = rest := fun _ => rfl
  cases h with
  | outcome =>
      rw [toList_nodeVar, hdrop]
      exact List.takeWhile_eq_self_iff.mpr hdigits
  | flow flow =>
      rw [toList_flowVar, hdrop, List.takeWhile_append_of_pos hdigits,
        List.takeWhile_cons_of_neg (by decide), List.append_nil]

/-- A temporary belongs to one node. -/
theorem IsTemporary.unique {node node' : ProcId} {name : String} (h : IsTemporary node name)
    (h' : IsTemporary node' name) : node = node' := by
  have hdigits : Nat.toDigits 10 node.index = Nat.toDigits 10 node'.index := by
    rw [← h.takeWhile_isDigit, h'.takeWhile_isDigit]
  exact congrArg ProcId.mk (toDigits_injective hdigits)

end Code

end ProcFlow
