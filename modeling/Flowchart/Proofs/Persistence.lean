import Flowchart.Proofs.Codec

/-!
Diagrams and types are read back from the JSON that they are written as, however deep their parts are
nested. Of the library that makes texts of JSON nothing is known here but what it is asked to do with
the one value: to hold it, and to read it back from its texts with the fields of objects in order.
-/
namespace Flowchart

namespace Json.Library

/-- The library can hold the value and reads it back from both of its texts. -/
structure Keeps (library : Library) (value : Json) : Prop where
  holds : library.holds value
  read_compact : library.read? (library.compact value) = some value
  read_pretty : library.read? (library.pretty value) = some value

/-- From both texts of the value the reader reads `a`. -/
def ReadsBack {α : Type} (library : Library) (read : Json → Option α) (value : Json) (a : α) : Prop :=
  ∀ text ∈ [library.compact value, library.pretty value], (library.read? text).bind read = some a

theorem Keeps.readsBack {α : Type} {library : Library} {read : Json → Option α} {value : Json} {a : α}
    (h : library.Keeps value) (hread : read value = some a) : library.ReadsBack read value a := by
  intro text htext
  have hvalue : library.read? text = some value := by
    rcases List.mem_pair.mp htext with rfl | rfl
    · exact h.read_compact
    · exact h.read_pretty
  rw [hvalue]
  exact hread

end Json.Library

theorem TypeDesc.ofHeld?_toJson {type : TypeDesc} (h : type.isCounted) :
    ofHeld? type.toJson = some type :=
  type.ofJsonWithin?_toJson false _ h (Nat.le_refl _)

/-- Diagrams and types are read back from their JSON, and from its texts if the library keeps it. -/
theorem Diagram.readsBack_model (library : Json.Library) (diagram : Diagram) (type : TypeDesc)
    (hdiagram : diagram.isProper = true) (htype : type.isCounted = true) :
    (Diagram.ofJson? diagram.toJson = some diagram ∧ TypeDesc.ofHeld? type.toJson = some type) ∧
      (library.Keeps diagram.toJson →
        library.ReadsBack Diagram.ofJson? diagram.toJson diagram) ∧
      (library.Keeps type.toJson →
        library.ReadsBack (TypeDesc.ofJson? library) type.toJson type) := by
  have hread := Diagram.ofJson?_toJson hdiagram
  have hheld := TypeDesc.ofHeld?_toJson htype
  refine ⟨⟨hread, hheld⟩, fun hkeeps => hkeeps.readsBack hread, fun hkeeps => hkeeps.readsBack ?_⟩
  rw [TypeDesc.ofJson?, if_pos hkeeps.holds]
  exact hheld

/-- A library that knows two values by their first keys, a property inside another one, and a type
inside another one. -/
theorem Diagram.readsBack_model_properties :
    let inner : Property := { valueKind := .flag, value := "true", optional := true }
    let outer : Property :=
      { valueKind := .view, value := [], properties := [("b", inner), ("a", inner)] }
    let node : Node :=
      { id := "1", kind := .functionCall, label := "f", properties := [("z", outer)], flags := ⟨3⟩ }
    let diagram : Diagram := ⟨"a.bal", some "f", [node], true⟩
    let type : TypeDesc := .union [.array (.basic .int) (some 3), .error none (some "E")]
    let key : Json → Text
      | .object ((key, _) :: _) => key
      | _ => []
    let library : Json.Library :=
      ⟨fun text => if text = "kind" then type.toJson else diagram.toJson, key, key, fun _ => true⟩
    Diagram.ofJson? diagram.toJson = some diagram ∧
      library.ReadsBack Diagram.ofJson? diagram.toJson diagram ∧
      library.ReadsBack (TypeDesc.ofJson? library) type.toJson type := by
  intro inner outer node diagram type key library
  obtain ⟨hvalues, hdiagram, htype⟩ :=
    readsBack_model library diagram type (by decide) (by decide)
  exact ⟨hvalues.1, hdiagram ⟨rfl, rfl, rfl⟩, htype ⟨rfl, rfl, rfl⟩⟩

end Flowchart
