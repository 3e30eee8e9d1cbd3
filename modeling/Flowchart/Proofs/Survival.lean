import Flowchart.Proofs.RoundTrip

/-!
What is left of a statement after it is rendered. A call of a remote or resource method that the
symbol table does not know has no node, so rendering the statement around it leaves it out. All other
statements are still there when the rendered text is read again, block by block.
-/
namespace Flowchart

open Lexeme Token StatementReader List Statement

variable {src : Source} {setting : Setting} {width : Nat} {like : Likeness}

namespace Text

theorem trim_subset (text : Text) : trim text ⊆ text := by
  intro d hd
  have hstart : d ∈ trimStart text :=
    mem_reverse.mp ((dropWhile_sublist _).subset (mem_reverse.mp hd))
  exact (dropWhile_sublist _).subset hstart

end Text

/-- A comment is rendered unless it is blank. -/
theorem Render.render_comment {node : Node} {comment : Text} (hkind : node.kind = .comment)
    (hcomment : node.property? Key.comment = some (.ofString comment)) (width : Nat) :
    render width node = if Text.trim comment = [] then .error (.missingProperty .comment Key.comment)
      else .ok (commentLines comment) := by
  rw [render_eq]
  unfold statement
  rw [hkind]
  change (required node Key.comment >>= _) = _
  split
  · next hblank =>
    rw [required, given?_of_blank hcomment hblank, missing, hkind]
    rfl
  · next hgiven =>
    rw [required_of_property? hcomment hgiven]
    rfl

def Statement.isComment : Statement → Bool
  | .comment .. => true
  | _ => false

end Flowchart
