import Flowchart.Proofs.Editing
import Flowchart.Proofs.Layout
import Mathlib.Order.Bounds.Defs

/-!
Byte offsets against positions. The offsets where a character starts or the text ends and the
positions that stand in the text are in the same order; any other offset has the position of the
last such offset before it.
-/
namespace Flowchart.Text

open List

variable {text : Text}

local instance (priority := low) Position.offsetOrder : LinearOrder Position :=
  Position.linearOrder

/-- A character starts at the offset, or the text ends there. -/
def IsBoundary (text : Text) (offset : Nat) : Prop :=
  ∃ before, before <+: text ∧ byteLength before = offset

theorem positionAt_initial {before : Text} (h : before <+: text) :
    positionAt text (byteLength before) = ({} : Position).after before := by
  obtain ⟨after, rfl⟩ := h
  exact positionAt_byteLength before after

theorem IsBoundary.le {offset : Nat} (h : text.IsBoundary offset) : offset ≤ byteLength text := by
  obtain ⟨before, ⟨after, rfl⟩, rfl⟩ := h
  rw [byteLength_append]
  exact Nat.le_add_right _ _

/-- The characters that end at or before an offset are the longest first part that it has room for. -/
theorem takeBytes_longest (offset : Nat) (text : Text) : byteLength (takeBytes offset text) ≤ offset ∧
    ∀ other, other <+: text → byteLength other ≤ offset → other <+: takeBytes offset text := by
  refine ⟨?_, fun other hother hfits => ?_⟩
  · induction text generalizing offset with
    | nil => exact Nat.zero_le _
    | cons c text ih =>
      rw [takeBytes]
      split
      · exact Nat.zero_le _
      · have hrest := ih (offset - c.utf8Size)
        rw [byteLength]
        omega
  · obtain ⟨rest, rfl⟩ := hother
    have hlonger := takeBytes_prefix hfits (other ++ rest)
    rwa [takeBytes_byteLength] at hlonger

/-- On the boundaries of characters, positions grow with the offsets and are taken back to them;
every position that has an offset is the position of a boundary; and an offset has the position of
the greatest boundary up to it. -/
theorem positionAt_orderIso (text : Text) :
    StrictMonoOn text.positionAt {offset | text.IsBoundary offset} ∧
      (∀ p offset, text.offsetAt? p = some offset ↔
        text.IsBoundary offset ∧ text.positionAt offset = p) ∧
      ∀ offset, ∃ boundary,
        IsGreatest {b | text.IsBoundary b ∧ b ≤ min offset text.byteLength} boundary ∧
          text.positionAt offset = text.positionAt boundary := by
  refine ⟨?_, fun p offset => offsetAt?_eq_some_iff.trans ⟨?_, ?_⟩, fun offset => ?_⟩
  · rintro a ⟨before, hbefore, rfl⟩ b ⟨longer, hlonger, rfl⟩ hlt
    rw [positionAt_initial hbefore, positionAt_initial hlonger]
    obtain ⟨_ | ⟨c, more⟩, rfl⟩ := prefix_of_byteLength_le hbefore hlonger hlt.le
    · rw [append_nil] at hlt
      exact absurd hlt (lt_irrefl _)
    · rw [Position.after_append]
      exact Position.lt_after _ c more
  · rintro ⟨before, after, rfl, rfl, rfl⟩
    exact ⟨⟨before, prefix_append .., rfl⟩, positionAt_byteLength before after⟩
  · rintro ⟨⟨before, ⟨after, rfl⟩, rfl⟩, rfl⟩
    exact ⟨before, after, rfl, (positionAt_byteLength before after).symm, rfl⟩
  · obtain ⟨hfits, hlongest⟩ := takeBytes_longest offset text
    have hbefore : takeBytes offset text <+: text := ⟨_, takeBytes_append_dropBytes offset text⟩
    have hboundary : text.IsBoundary (byteLength (takeBytes offset text)) := ⟨_, hbefore, rfl⟩
    refine ⟨_, ⟨⟨hboundary, le_min hfits hboundary.le⟩, ?_⟩, ?_⟩
    · rintro _ ⟨⟨other, hother, rfl⟩, hle⟩
      exact IsBoundary.le ⟨other, hlongest other hother (hle.trans (min_le_left _ _)), rfl⟩
    · rw [positionAt_initial hbefore, positionAt_eq]

end Flowchart.Text
