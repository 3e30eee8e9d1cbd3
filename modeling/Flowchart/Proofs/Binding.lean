import Flowchart.Syntax.Cursor

/-!
A chain of steps that ends well went well at every step. The lemmas take such a chain apart, one
step at a time, for steps that only can fail and for steps that also read from a cursor.
-/
namespace Flowchart

namespace Except

variable {ε α : Type} {x : Except ε α}

theorem bind_eq_ok {β : Type} {f : α → Except ε β} {b : β} (h : (x >>= f) = .ok b) :
    ∃ a, x = .ok a ∧ f a = .ok b := by
  cases x with
  | error error => cases h
  | ok a => exact ⟨a, rfl, h⟩

theorem bind_eq_error {β : Type} {f : α → Except ε β} {e : ε} (h : (x >>= f) = .error e) :
    x = .error e ∨ ∃ a, x = .ok a ∧ f a = .error e := by
  cases x with
  | error error =>
    cases h
    exact .inl rfl
  | ok a => exact .inr ⟨a, rfl, h⟩

theorem eq_ok_of_toOption {a : α} (h : x.toOption = some a) : x = .ok a := by
  cases x with
  | error error => cases h
  | ok b => exact congrArg _ (Option.some.inj h)

/-- What is checked of the result of a step says that there is one. -/
theorem exists_ok (x : Except ε α) (p : α → Prop) [DecidablePred p]
    (h : x.toOption.any (fun a => p a) = true) : ∃ a, x = .ok a ∧ p a := by
  obtain ⟨a, ha, hp⟩ := (Option.any_eq_true _ _).mp h
  exact ⟨a, eq_ok_of_toOption ha, of_decide_eq_true hp⟩

end Except

namespace Reader

variable {α β : Type} {x : Reader α} {f : α → Reader β} {c c' : Cursor}

theorem bind_eq_ok {b : β} (h : (x >>= f) c = .ok b c') :
    ∃ a next, x c = .ok a next ∧ f a next = .ok b c' := by
  change EStateM.bind x f c = _ at h
  unfold EStateM.bind at h
  split at h
  · next a next hx => exact ⟨a, next, hx, h⟩
  · cases h

theorem bind_of_ok {a : α} {next : Cursor} (h : x c = .ok a next) : (x >>= f) c = f a next := by
  change EStateM.bind x f c = _
  unfold EStateM.bind
  rw [h]

theorem bind_of_error {error : SyntaxError} (h : x c = .error error c') :
    (x >>= f) c = .error error c' := by
  change EStateM.bind x f c = _
  unfold EStateM.bind
  rw [h]

theorem map_eq_ok {g : α → β} {b : β} (h : (g <$> x) c = .ok b c') :
    ∃ a, x c = .ok a c' ∧ b = g a := by
  change EStateM.map g x c = _ at h
  unfold EStateM.map at h
  split at h
  · next a next hx =>
    cases h
    exact ⟨a, hx, rfl⟩
  · cases h

theorem map_of_ok {g : α → β} {a : α} {next : Cursor} (h : x c = .ok a next) :
    (g <$> x) c = .ok (g a) next := by
  change EStateM.map g x c = _
  unfold EStateM.map
  rw [h]

theorem get_bind (f : Cursor → Reader β) (c : Cursor) : ((get : Reader Cursor) >>= f) c = f c c :=
  rfl

theorem set_bind (next : Cursor) (f : PUnit → Reader β) (c : Cursor) :
    ((set next : Reader PUnit) >>= f) c = f ⟨⟩ next :=
  rfl

theorem advance_bind (f : Unit → Reader β) (c : Cursor) : (advance >>= f) c = f () c.next :=
  rfl

end Reader

end Flowchart
