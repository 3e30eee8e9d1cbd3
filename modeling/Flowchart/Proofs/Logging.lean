import Flowchart.Proofs.Reading

/-!
What the readers do to the log. Readers of tokens leave it alone, whether they succeed or fail;
readers of blocks only add to it, and only problems of the file they read. So a statement that
cannot be read leaves problems of statements inside of it in the log only if it starts with a word
that a block comes after.
-/
namespace Flowchart

open List

variable {c : Cursor}

namespace Cursor

theorem log_next (c : Cursor) : c.next.log = c.log := by
  unfold next
  split <;> rfl

end Cursor

namespace Reader

variable {α β : Type} {p q : Diagnostic → Prop} {src : Source} {x : Reader α}

/-- The cursor that a reader leaves, whether it succeeds or fails. -/
def left : EStateM.Result SyntaxError Cursor α → Cursor
  | .ok _ c => c
  | .error _ c => c

/-- Reading from a cursor only adds to the log, and only problems for which `p` holds. -/
def AddsAt (p : Diagnostic → Prop) (read : Reader α) (c : Cursor) : Prop :=
  ∃ added, (left (read c)).log = c.log ++ added ∧ ∀ d ∈ added, p d

/-- Reading only adds to the log, and only problems for which `p` holds. -/
def Adds (p : Diagnostic → Prop) (read : Reader α) : Prop := ∀ c, AddsAt p read c

theorem addsAt_of_same {read : Reader α} (h : (left (read c)).log = c.log) :
    AddsAt p read c := ⟨[], by rw [h, append_nil], nofun⟩

theorem AddsAt.bind {f : α → Reader β} (hx : AddsAt p x c)
    (hf : ∀ a c', x c = .ok a c' → AddsAt p (f a) c') : AddsAt p (x >>= f) c := by
  obtain ⟨added, hlog, hadded⟩ := hx
  change ∃ added, (left (EStateM.bind x f c)).log = c.log ++ added ∧ ∀ d ∈ added, p d
  unfold EStateM.bind
  cases h : x c with
  | error e c' =>
    rw [h] at hlog
    exact ⟨added, hlog, hadded⟩
  | ok a c' =>
    rw [h] at hlog
    change c'.log = c.log ++ added at hlog
    obtain ⟨more, hmore, hadded'⟩ := hf a c' h
    refine ⟨added ++ more, ?_, fun d hd => ?_⟩
    · rw [hmore, hlog, append_assoc]
    · rcases mem_append.mp hd with hd | hd
      · exact hadded d hd
      · exact hadded' d hd

theorem Adds.bind {f : α → Reader β} (hx : Adds p x) (hf : ∀ a, Adds p (f a)) :
    Adds p (x >>= f) := fun c => (hx c).bind fun a c' _ => hf a c'

theorem Adds.mono (hx : Adds p x) (h : ∀ d, p d → q d) : Adds q x := by
  intro c
  obtain ⟨added, hlog, hadded⟩ := hx c
  exact ⟨added, hlog, fun d hd => h d (hadded d hd)⟩

theorem Adds.map {g : α → β} (hx : Adds p x) : Adds p (g <$> x) := by
  intro c
  obtain ⟨added, hlog, hadded⟩ := hx c
  refine ⟨added, ?_, hadded⟩
  rw [← hlog]
  change (left (EStateM.map g x c)).log = _
  unfold EStateM.map
  cases x c <;> rfl

theorem adds_pure (a : α) : Adds p (pure a : Reader α) := fun _ => addsAt_of_same rfl

theorem adds_get : Adds p (get : Reader Cursor) := fun _ => addsAt_of_same rfl

theorem adds_failAt (token : Token) (fault : SyntaxFault) : Adds p (failAt token fault : Reader α) :=
  fun _ => addsAt_of_same rfl

theorem adds_failAtEnd (fault : SyntaxFault) : Adds p (failAtEnd src fault : Reader α) :=
  fun _ => addsAt_of_same rfl

theorem adds_advance : Adds p advance := fun c => addsAt_of_same c.log_next

theorem adds_eat (text : Text) : Adds p (eat text) := by
  intro c
  apply addsAt_of_same
  unfold eat
  split
  · exact c.log_next
  · rfl

theorem adds_expect (text : Text) : Adds p (expect src text) := by
  intro c
  apply addsAt_of_same
  unfold expect
  split
  · rfl
  · split
    · exact c.log_next
    · rfl

theorem adds_expectWord : Adds p (expectWord src) := by
  intro c
  apply addsAt_of_same
  unfold expectWord
  split
  · rfl
  · split
    · exact c.log_next
    · rfl

theorem adds_type : Adds p (TypeText.read src) := by
  intro c
  apply addsAt_of_same
  unfold TypeText.read
  split
  · rfl
  · split <;> rfl

theorem adds_readUntil (stop : Text) : Adds p (ExprReader.readUntil src stop) := by
  intro c
  apply addsAt_of_same
  unfold ExprReader.readUntil
  split
  · rfl
  · split <;> rfl

end Reader

namespace StatementReader

open Reader

variable {p : Diagnostic → Prop} {src : Source}

theorem adds_valueToSemicolon : Adds p (valueToSemicolon src) :=
  (adds_readUntil _).bind fun _ => (adds_expect _).bind fun _ => adds_pure _

theorem adds_initializer : Adds p (initializer src) := by
  refine (adds_eat _).bind fun found => ?_
  have hend (init : Option Expr) : Adds p (expect src ";" >>= fun _ => pure init) :=
    (adds_expect _).bind fun _ => adds_pure _
  split
  · exact ((adds_readUntil _).map).bind hend
  · exact (adds_pure _).bind hend

theorem adds_simple : Adds p (simple src) := by
  refine (adds_eat _).bind fun isFinal => ?_
  intro c
  refine (adds_get c).bind fun cursor c' hget => ?_
  cases hget
  split
  · next typeName name next hdeclares =>
    have hlog : next.log = c.log := by
      unfold declaration? at hdeclares
      split at hdeclares
      · split at hdeclares
        · cases hdeclares
          rfl
        · cases hdeclares
      · cases hdeclares
    refine AddsAt.bind (addsAt_of_same hlog) fun _ c' hset => ?_
    cases hset
    exact Adds.bind adds_initializer (fun init => adds_pure _) next
  · split
    · split
      · exact adds_failAt _ _ c
      · exact adds_failAtEnd _ c
    · split
      · refine AddsAt.bind (addsAt_of_same rfl) fun _ c' hset => ?_
        cases hset
        exact Adds.bind adds_valueToSemicolon (fun value => adds_pure _) _
      · exact Adds.bind adds_valueToSemicolon (fun value => adds_pure _) _

/-- The words that a block comes after. -/
def blockWords : List Text := ["if", "while", "foreach", "do", "lock"]

/-- The log before and after a broken statement: problems of statements inside of it, if it starts
with a word that a block comes after, and then its own problem. -/
def Noted (first : Token) (extent : Extent) (log log' : List Diagnostic) : Prop :=
  ∃ error added, log' = log ++ (added ++ [broken error extent.range]) ∧
    (added ≠ [] → first.text ∈ blockWords)

theorem Noted.ne_nil {first : Token} {extent : Extent} {log log' : List Diagnostic}
    (h : Noted first extent log log') : log' ≠ [] := by
  obtain ⟨error, added, rfl, -⟩ := h
  simp

section

variable {block : Reader Block} (hblock : Adds (·.range.file = src.file) block)

include hblock

theorem adds_handler : Adds (·.range.file = src.file) (handler src block) := by
  refine adds_get.bind fun cursor => ?_
  have hbody (binding : Option (Text × Text)) :
      Adds (·.range.file = src.file) (block >>= fun body => pure (Handler.onFail binding body)) :=
    hblock.bind fun _ => adds_pure _
  split
  · refine adds_advance.bind fun _ => adds_advance.bind fun _ => adds_get.bind fun cursor => ?_
    split
    · exact (adds_pure _).bind hbody
    · exact adds_type.bind fun typeName => adds_expectWord.bind fun name => (adds_pure _).bind hbody
  · exact adds_pure _

theorem adds_conditional (bound : Nat) :
    Adds (·.range.file = src.file) (conditional src block bound) := by
  induction bound with
  | zero => exact adds_failAtEnd _
  | succ bound ih =>
    refine (adds_expect _).bind fun _ => (adds_readUntil _).bind fun condition => ?_
    refine hblock.bind fun body => (adds_eat _).bind fun other => ?_
    split
    · refine adds_get.bind fun cursor => ?_
      split
      · split
        · exact ih.bind fun _ => adds_get.bind fun _ => adds_pure _
        · exact hblock.bind fun _ => adds_pure _
      · exact hblock.bind fun _ => adds_pure _
    · exact adds_pure _

theorem adds_shape (first : Token) :
    Adds (fun d => first.text ∈ blockWords ∧ d.range.file = src.file) (shape src block first) := by
  have hopen {α : Type} {word : Text} {read : Reader α} (h : first.is word)
      (hword : word ∈ blockWords) (hread : Adds (·.range.file = src.file) read) :
      Adds (fun d => first.text ∈ blockWords ∧ d.range.file = src.file) read := by
    refine hread.mono fun d hfile => ⟨?_, hfile⟩
    rw [of_decide_eq_true h]
    exact hword
  have hbody {α : Type} (make : Block → Handler → α) : Adds (·.range.file = src.file)
      (block >>= fun body => handler src block >>= fun found => pure (make body found)) :=
    hblock.bind fun _ => (adds_handler hblock).bind fun _ => adds_pure _
  unfold shape
  split
  · refine adds_advance.bind fun _ => (adds_eat _).bind fun ended => ?_
    split
    · exact adds_pure _
    · exact adds_valueToSemicolon.bind fun _ => adds_pure _
  split
  · next hfirst =>
    exact hopen hfirst (by decide)
      (adds_get.bind fun _ => (adds_conditional hblock _).bind fun _ => adds_pure _)
  split
  · next hfirst =>
    exact hopen hfirst (by decide)
      (adds_advance.bind fun _ => (adds_readUntil _).bind fun _ => hbody _)
  split
  · next hfirst =>
    exact hopen hfirst (by decide) (adds_advance.bind fun _ => adds_type.bind fun _ =>
      adds_expectWord.bind fun _ => (adds_expect _).bind fun _ =>
        (adds_readUntil _).bind fun _ => hbody _)
  split
  · next hfirst => exact hopen hfirst (by decide) (adds_advance.bind fun _ => hbody _)
  split
  · next hfirst => exact hopen hfirst (by decide) (adds_advance.bind fun _ => hbody _)
  split
  · exact adds_advance.bind fun _ => (adds_expect _).bind fun _ => adds_pure _
  split
  · exact adds_advance.bind fun _ => (adds_expect _).bind fun _ => adds_pure _
  refine adds_get.bind fun _ => ?_
  split
  · exact adds_advance.bind fun _ => adds_valueToSemicolon.bind fun _ => adds_pure _
  · exact adds_simple

/-- A statement leaves problems in the log only if it starts with a word that a block comes
after. -/
theorem adds_statement (first : Token) :
    Adds (fun d => first.text ∈ blockWords ∧ d.range.file = src.file)
      (statement src block first) :=
  (adds_shape hblock first).bind fun _ => adds_get.bind fun _ => adds_pure _

theorem recovering_noted {first : Token} {failed : Cursor} {error : SyntaxError}
    (h : statement src block first c = .error error failed) (extent : Extent) :
    Noted first extent c.log (failed.log ++ [broken error extent.range]) := by
  obtain ⟨added, hlog, hadded⟩ := adds_statement hblock first c
  rw [h] at hlog
  change failed.log = c.log ++ added at hlog
  refine ⟨error, added, by rw [hlog, append_assoc], fun hne => ?_⟩
  obtain ⟨d, hd⟩ := exists_mem_of_ne_nil added hne
  exact (hadded d hd).1

theorem adds_statements (opening : Token) (bound : Nat) :
    Adds (·.range.file = src.file) (statements src (statement src block) opening bound) := by
  induction bound with
  | zero => exact adds_failAtEnd _
  | succ bound ih =>
    have hcomment : Adds (·.range.file = src.file) (comment? src) := by
      intro c
      apply addsAt_of_same
      unfold comment?
      split <;> rfl
    have hrecovering (token : Token) :
        Adds (·.range.file = src.file) (recovering src (statement src block) token) := by
      intro c
      obtain ⟨added, hlog, hadded⟩ := adds_statement hblock token c
      unfold AddsAt recovering
      split
      · next hread =>
        rw [hread] at hlog
        exact ⟨added, hlog, fun d hd => (hadded d hd).2⟩
      · next error failed hread =>
        rw [hread] at hlog
        generalize skipBroken 0 token.stop c.rest = skipped
        obtain ⟨stop, rest⟩ := skipped
        refine ⟨added ++ [broken error (src.extent token.start stop).range], ?_, fun d hd => ?_⟩
        · rw [← append_assoc, ← hlog]
          rfl
        · rcases mem_append.mp hd with hd | hd
          · exact (hadded d hd).2
          · rw [mem_singleton.mp hd]
            rfl
    refine hcomment.bind fun comment => ?_
    split
    · exact ih.bind fun _ => adds_pure _
    · refine adds_get.bind fun cursor => ?_
      split
      · exact adds_failAt _ _
      · split
        · exact adds_pure _
        · exact (hrecovering _).bind fun _ => ih.bind fun _ => adds_pure _

end

theorem adds_block (depth : Nat) : Adds (·.range.file = src.file) (block src depth) := by
  induction depth with
  | zero => exact adds_failAtEnd _
  | succ depth ih =>
    exact (adds_expect _).bind fun opening => adds_get.bind fun _ =>
      (adds_statements ih opening _).bind fun _ => (adds_expect _).bind fun _ => adds_pure _

end StatementReader

end Flowchart
