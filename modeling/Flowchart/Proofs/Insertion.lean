import Flowchart.Proofs.RoundTrip

/-!
Putting a statement in among others. Lexemes of a file with the spellings of one more statement after
the last lexeme of a statement are read as the same statements with the new one after it, whatever
block that statement stands in. No statement may start with an else or with the word on, so that none
is taken for a part of the statement before it.
-/
namespace Flowchart

open Lexeme Token StatementReader List Statement

variable {body : Block} {isIn : Bool} {first rest taken : List Lexeme} {ks : List Spelling}
  {statement : Statement}

mutual

/-- The second list is the first with a statement put in, after one that ends at the position and in
the block that holds it. -/
inductive Inserted (s : Statement) (p : Position) : List Statement → List Statement → Prop
  | here {x : Statement} {rest : List Statement} (hstop : x.extent.range.stop = p) :
      Inserted s p (x :: rest) (x :: s :: rest)
  | inside {x x' : Statement} {rest : List Statement} (h : InsertedIn s p x x') :
      Inserted s p (x :: rest) (x' :: rest)
  | later {x : Statement} {rest rest' : List Statement} (h : Inserted s p rest rest') :
      Inserted s p (x :: rest) (x :: rest')

/-- The statement is put in in a block of the first one. -/
inductive InsertedIn (s : Statement) (p : Position) : Statement → Statement → Prop
  | cond {extent : Extent} {condition : Expr} {body body' : Block} {otherwise otherwise' : Otherwise}
      (h : InsertedBranch s p body otherwise body' otherwise') :
      InsertedIn s p (.cond extent condition body otherwise) (.cond extent condition body' otherwise')
  | loop {extent : Extent} {condition : Expr} {body body' : Block} {handler handler' : Handler}
      (h : InsertedGuard s p body handler body' handler') :
      InsertedIn s p (.loop extent condition body handler) (.loop extent condition body' handler')
  | each {extent : Extent} {typeName name : Text} {collection : Expr} {body body' : Block}
      {handler handler' : Handler} (h : InsertedGuard s p body handler body' handler') :
      InsertedIn s p (.each extent typeName name collection body handler)
        (.each extent typeName name collection body' handler')
  | attempt {extent : Extent} {body body' : Block} {handler handler' : Handler}
      (h : InsertedGuard s p body handler body' handler') :
      InsertedIn s p (.attempt extent body handler) (.attempt extent body' handler')
  | lock {extent : Extent} {body body' : Block} {handler handler' : Handler}
      (h : InsertedGuard s p body handler body' handler') :
      InsertedIn s p (.lock extent body handler) (.lock extent body' handler')

inductive InsertedBranch (s : Statement) (p : Position) :
    Block → Otherwise → Block → Otherwise → Prop
  | body {extent : Extent} {a a' : List Statement} {otherwise : Otherwise} (h : Inserted s p a a') :
      InsertedBranch s p (.mk extent a) otherwise (.mk extent a') otherwise
  | last {extent : Extent} {a a' : List Statement} {body : Block} (h : Inserted s p a a') :
      InsertedBranch s p body (.block (.mk extent a)) body (.block (.mk extent a'))
  | chained {extent : Extent} {condition : Expr} {body inner inner' : Block}
      {otherwise otherwise' : Otherwise}
      (h : InsertedBranch s p inner otherwise inner' otherwise') :
      InsertedBranch s p body (.cond extent condition inner otherwise) body
        (.cond extent condition inner' otherwise')

inductive InsertedGuard (s : Statement) (p : Position) : Block → Handler → Block → Handler → Prop
  | body {extent : Extent} {a a' : List Statement} {handler : Handler} (h : Inserted s p a a') :
      InsertedGuard s p (.mk extent a) handler (.mk extent a') handler
  | handler {binding : Option (Text × Text)} {extent : Extent} {a a' : List Statement} {body : Block}
      (h : Inserted s p a a') :
      InsertedGuard s p body (.onFail binding (.mk extent a)) body (.onFail binding (.mk extent a'))

end

inductive InsertedHandler (s : Statement) (p : Position) : Handler → Handler → Prop
  | intro {binding : Option (Text × Text)} {extent : Extent} {a a' : List Statement}
      (h : Inserted s p a a') :
      InsertedHandler s p (.onFail binding (.mk extent a)) (.onFail binding (.mk extent a'))

inductive InsertedOther (s : Statement) (p : Position) : Otherwise → Otherwise → Prop
  | last {extent : Extent} {a a' : List Statement} (h : Inserted s p a a') :
      InsertedOther s p (.block (.mk extent a)) (.block (.mk extent a'))
  | chained {extent : Extent} {condition : Expr} {inner inner' : Block}
      {otherwise otherwise' : Otherwise} (h : InsertedBranch s p inner otherwise inner' otherwise') :
      InsertedOther s p (.cond extent condition inner otherwise)
        (.cond extent condition inner' otherwise')

/-- A part stays as it is, or the statement is put in in it. -/
inductive Becomes {α : Type} (R : α → α → Prop) : Bool → α → α → Prop
  | same (a : α) : Becomes R false a a
  | changed {a a' : α} (h : R a a') : Becomes R true a a'

variable {s : Statement} {p : Position} {body' : Block}

mutual

/-- Whether a statement in a block of this one ends at the position. -/
def Statement.holdsEnd (p : Position) : Statement → Bool
  | .cond _ _ body otherwise => body.holdsEnd p || otherwise.holdsEnd p
  | .loop _ _ body handler => body.holdsEnd p || handler.holdsEnd p
  | .each _ _ _ _ body handler => body.holdsEnd p || handler.holdsEnd p
  | .attempt _ body handler => body.holdsEnd p || handler.holdsEnd p
  | .lock _ body handler => body.holdsEnd p || handler.holdsEnd p
  | _ => false

def Otherwise.holdsEnd (p : Position) : Otherwise → Bool
  | .nothing => false
  | .cond _ _ body otherwise => body.holdsEnd p || otherwise.holdsEnd p
  | .block body => body.holdsEnd p

def Handler.holdsEnd (p : Position) : Handler → Bool
  | .nothing => false
  | .onFail _ body => body.holdsEnd p

def Block.holdsEnd (p : Position) : Block → Bool
  | .mk _ statements => Statement.anyEnds p statements

def Statement.anyEnds (p : Position) : List Statement → Bool
  | [] => false
  | x :: rest => decide (x.extent.range.stop = p) || (x.holdsEnd p || Statement.anyEnds p rest)

end

theorem InsertedBranch.exists {otherwise : Otherwise}
    (h : (body.holdsEnd p || otherwise.holdsEnd p))
    (hbody : body.holdsEnd p → ∃ a', Inserted s p body.statements a')
    (hother : otherwise.holdsEnd p → ∃ otherwise', ∀ body, InsertedBranch s p body otherwise
      body otherwise') :
    ∃ body' otherwise', InsertedBranch s p body otherwise body' otherwise' := by
  rcases (Bool.or_eq_true _ _).mp h with h | h
  · obtain ⟨a', ha⟩ := hbody h
    cases body
    exact ⟨_, _, .body ha⟩
  · obtain ⟨otherwise', hinserted⟩ := hother h
    exact ⟨_, _, hinserted body⟩

theorem InsertedGuard.exists {handler : Handler}
    (h : (body.holdsEnd p || handler.holdsEnd p))
    (hbody : body.holdsEnd p → ∃ a', Inserted s p body.statements a')
    (hhandler : handler.holdsEnd p → ∃ handler', ∀ body, InsertedGuard s p body handler body
      handler') : ∃ body' handler', InsertedGuard s p body handler body' handler' := by
  rcases (Bool.or_eq_true _ _).mp h with h | h
  · obtain ⟨a', ha⟩ := hbody h
    cases body
    exact ⟨_, _, .body ha⟩
  · obtain ⟨handler', hinserted⟩ := hhandler h
    exact ⟨_, _, hinserted body⟩

mutual

theorem InsertedIn.exists (x : Statement) (h : x.holdsEnd p) : ∃ x', InsertedIn s p x x' := by
  cases x with
  | cond extent condition body otherwise =>
    obtain ⟨_, _, hin⟩ := InsertedBranch.exists h (Inserted.exists_block body)
      (InsertedBranch.exists_otherwise otherwise)
    exact ⟨_, .cond hin⟩
  | loop extent condition body handler =>
    obtain ⟨_, _, hin⟩ := InsertedGuard.exists h (Inserted.exists_block body)
      (InsertedGuard.exists_handler handler)
    exact ⟨_, .loop hin⟩
  | each extent typeName name collection body handler =>
    obtain ⟨_, _, hin⟩ := InsertedGuard.exists h (Inserted.exists_block body)
      (InsertedGuard.exists_handler handler)
    exact ⟨_, .each hin⟩
  | attempt extent body handler =>
    obtain ⟨_, _, hin⟩ := InsertedGuard.exists h (Inserted.exists_block body)
      (InsertedGuard.exists_handler handler)
    exact ⟨_, .attempt hin⟩
  | lock extent body handler =>
    obtain ⟨_, _, hin⟩ := InsertedGuard.exists h (Inserted.exists_block body)
      (InsertedGuard.exists_handler handler)
    exact ⟨_, .lock hin⟩
  | _ => cases h

theorem InsertedBranch.exists_otherwise (otherwise : Otherwise) (h : otherwise.holdsEnd p) :
    ∃ otherwise', ∀ body, InsertedBranch s p body otherwise body otherwise' := by
  cases otherwise with
  | nothing => cases h
  | cond extent condition inner otherwise =>
    obtain ⟨_, _, hin⟩ := InsertedBranch.exists h (Inserted.exists_block inner)
      (InsertedBranch.exists_otherwise otherwise)
    exact ⟨_, fun _ => .chained hin⟩
  | block inner =>
    obtain ⟨a', ha⟩ := Inserted.exists_block inner h
    cases inner
    exact ⟨_, fun _ => .last ha⟩

theorem InsertedGuard.exists_handler (handler : Handler) (h : handler.holdsEnd p) :
    ∃ handler', ∀ body, InsertedGuard s p body handler body handler' := by
  cases handler with
  | nothing => cases h
  | onFail binding inner =>
    obtain ⟨a', ha⟩ := Inserted.exists_block inner h
    cases inner
    exact ⟨_, fun _ => .handler ha⟩

theorem Inserted.exists_block (body : Block) (h : body.holdsEnd p) :
    ∃ a', Inserted s p body.statements a' := by
  cases body with
  | mk extent statements => exact Inserted.exists statements h

/-- A statement can be put in wherever one of the list or of its blocks ends. -/
theorem Inserted.exists (statements : List Statement) (h : Statement.anyEnds p statements) :
    ∃ after, Inserted s p statements after := by
  cases statements with
  | nil => cases h
  | cons x rest =>
    rcases (Bool.or_eq_true _ _).mp h with hstop | h
    · exact ⟨_, .here (of_decide_eq_true hstop)⟩
    rcases (Bool.or_eq_true _ _).mp h with hinside | hlater
    · obtain ⟨x', hx⟩ := InsertedIn.exists x hinside
      exact ⟨_, .inside hx⟩
    · obtain ⟨rest', hrest⟩ := Inserted.exists rest hlater
      exact ⟨_, .later hrest⟩

end

/-- Of a body and what follows it, one at most is changed. -/
def BodyBecomes {α : Type} (s : Statement) (p : Position) (R : α → α → Prop) (isIn : Bool)
    (body body' : Block) (after after' : α) : Prop :=
  ∃ i j, isIn = (i || j) ∧ (i && j) = false ∧
    Becomes (Inserted s p) i body.statements body'.statements ∧ Becomes R j after after'

theorem BodyBecomes.same {α : Type} {R : α → α → Prop} (body : Block) (after : α) :
    BodyBecomes s p R false body body after after :=
  ⟨false, false, rfl, rfl, .same _, .same _⟩

theorem InsertedBranch.becomes {otherwise otherwise' : Otherwise}
    (h : InsertedBranch s p body otherwise body' otherwise') :
    BodyBecomes s p (InsertedOther s p) true body body' otherwise otherwise' := by
  cases h with
  | body hbody => exact ⟨true, false, rfl, rfl, .changed hbody, .same _⟩
  | last hlast => exact ⟨false, true, rfl, rfl, .same _, .changed (.last hlast)⟩
  | chained hinner => exact ⟨false, true, rfl, rfl, .same _, .changed (.chained hinner)⟩

theorem InsertedGuard.becomes {handler handler' : Handler}
    (h : InsertedGuard s p body handler body' handler') :
    BodyBecomes s p (InsertedHandler s p) true body body' handler handler' := by
  cases h with
  | body hbody => exact ⟨true, false, rfl, rfl, .changed hbody, .same _⟩
  | handler hheld => exact ⟨false, true, rfl, rfl, .same _, .changed (.intro hheld)⟩

theorem Becomes.cond {extent : Extent} {condition : Expr} {otherwise : Otherwise} {x' : Statement}
    (h : Becomes (InsertedIn s p) isIn (.cond extent condition body otherwise) x') :
    ∃ body' otherwise', x' = .cond extent condition body' otherwise' ∧
      BodyBecomes s p (InsertedOther s p) isIn body body' otherwise otherwise' := by
  cases h with
  | same => exact ⟨_, _, rfl, .same _ _⟩
  | changed h =>
    cases h with
    | cond hbranch => exact ⟨_, _, rfl, hbranch.becomes⟩

/-- The new statement comes right after the first one, or in it or after it. -/
theorem Becomes.cons {isIn : Bool} {x : Statement} {rest a' : List Statement}
    (h : Becomes (Inserted s p) isIn (x :: rest) a') :
    (isIn ∧ a' = x :: s :: rest ∧ x.extent.range.stop = p) ∨
      ∃ x' rest' i j, a' = x' :: rest' ∧ isIn = (i || j) ∧ (i && j) = false ∧
        Becomes (InsertedIn s p) i x x' ∧ Becomes (Inserted s p) j rest rest' := by
  cases h with
  | same => exact .inr ⟨_, _, false, false, rfl, rfl, rfl, .same _, .same _⟩
  | changed h =>
    cases h with
    | here hstop => exact .inl ⟨rfl, rfl, hstop⟩
    | inside hinside => exact .inr ⟨_, _, true, false, rfl, rfl, rfl, .changed hinside, .same _⟩
    | later hlater => exact .inr ⟨_, _, false, true, rfl, rfl, rfl, .same _, .changed hlater⟩

theorem Becomes.handler {binding : Option (Text × Text)} {held' : Handler}
    (h : Becomes (InsertedHandler s p) isIn (.onFail binding body) held') :
    ∃ body', held' = .onFail binding body' ∧
      Becomes (Inserted s p) isIn body.statements body'.statements := by
  cases h with
  | same => exact ⟨_, rfl, .same _⟩
  | changed h =>
    cases h with
    | intro hbody => exact ⟨_, rfl, .changed hbody⟩

theorem Becomes.last {other' : Otherwise}
    (h : Becomes (InsertedOther s p) isIn (.block body) other') :
    ∃ body', other' = .block body' ∧
      Becomes (Inserted s p) isIn body.statements body'.statements := by
  cases h with
  | same => exact ⟨_, rfl, .same _⟩
  | changed h =>
    cases h with
    | last hlast => exact ⟨_, rfl, .changed hlast⟩

theorem Becomes.chained {extent : Extent} {condition : Expr} {otherwise other' : Otherwise}
    (h : Becomes (InsertedOther s p) isIn (.cond extent condition body otherwise) other') :
    ∃ body' otherwise', other' = .cond extent condition body' otherwise' ∧
      BodyBecomes s p (InsertedOther s p) isIn body body' otherwise otherwise' := by
  cases h with
  | same => exact ⟨_, _, rfl, .same _ _⟩
  | changed h =>
    cases h with
    | chained hinner => exact ⟨_, _, rfl, hinner.becomes⟩

/-- The spellings of some lexemes, with others put in after a lexeme that ends at the position. -/
inductive Woven (p : Position) (ss : List Spelling) : Bool → List Lexeme → List Spelling → Prop
  | same (lexemes : List Lexeme) : Woven p ss false lexemes (spellings lexemes)
  | after {a b : List Lexeme} {last : Lexeme} (hlast : a.getLast? = some last)
      (hstop : last.token.stop.position = p) :
      Woven p ss true (a ++ b) (spellings a ++ (ss ++ spellings b))

namespace Woven

variable {ss ls : List Spelling} {i j : Bool} {a b : List Lexeme}

theorem append (h : Woven p ss i a ks) (h' : Woven p ss j b ls) (hone : (i && j) = false) :
    Woven p ss (i || j) (a ++ b) (ks ++ ls) := by
  cases h with
  | same =>
    cases h' with
    | same =>
      rw [← spellings_append]
      exact .same _
    | after hlast hstop =>
      rw [← append_assoc, ← append_assoc, ← spellings_append]
      exact .after (by rw [getLast?_append, hlast]; rfl) hstop
  | after hlast hstop =>
    cases h' with
    | same =>
      rw [append_assoc, append_assoc, append_assoc, ← spellings_append]
      exact .after hlast hstop
    | after => cases hone

theorem congr (h : Woven p ss i a ks) (heq : ks = ls) : Woven p ss i a ls := heq ▸ h

theorem behind (h : Woven p ss i a ks) : Woven p ss i (first ++ a) (spellings first ++ ks) := by
  have hall := (same first).append h (Bool.false_and _)
  rwa [Bool.false_or] at hall

theorem around {last : List Lexeme} (h : Woven p ss i a ks) :
    Woven p ss i (first ++ (a ++ last)) (spellings first ++ (ks ++ spellings last)) := by
  have hback := h.append (same last) (Bool.and_false i)
  rw [Bool.or_false] at hback
  exact hback.behind

end Woven

/-- The spellings do not start with a word that continues a statement. -/
def Apart (ks : List Spelling) : Prop :=
  ∀ first, ks.head? = some first → first.text ≠ "else" ∧ first.text ≠ "on"

theorem Apart.allows (h : Apart ks) (ending : Ending) (tail : List Spelling) :
    ending.Allows (ks ++ mark "\x7d" :: tail) := by
  obtain ⟨first, more, hks, hfirst⟩ : ∃ first more, ks ++ mark "\x7d" :: tail = first :: more ∧
      first.text ≠ "else" ∧ first.text ≠ "on" := by
    cases ks with
    | nil => exact ⟨_, _, rfl, by decide, by decide⟩
    | cons first ks => exact ⟨first, _, rfl, h first rfl⟩
  refine ⟨fun _ => ?_, fun _ => ?_⟩
  · rw [hks, Spelling.begin_cons, decide_eq_false (Ne.symm hfirst.1)]
    rfl
  · rw [hks, Spelling.begin_cons, decide_eq_false (Ne.symm hfirst.2)]
    rfl

theorem Apart.append (h : Apart ks) (hne : ks ≠ []) (more : List Spelling) :
    Apart (ks ++ more) := by
  obtain ⟨first, rest, rfl⟩ := exists_cons_of_ne_nil hne
  exact h

/-- The statement was read, has its parts to itself, and does not start like a part of another one. -/
def Statement.isApart (x : Statement) : Bool :=
  x.isRead && !x.overreaches && !x.startsWith "else" && !x.startsWith "on"

/-- The statement is found where its spellings stand, and these do not start like a part of another
one. -/
structure Fitting (like : Likeness) (s : Statement) (ss : List Spelling) : Prop where
  found : ∃ ending, FindsStatement like ss ending s
  nonempty : ss ≠ []
  apart : Apart ss

/-- The statement stands apart, and the new one fits in after it if it ends at the position. -/
structure Ready (like : Likeness) (s : Statement) (p : Position) (ss : List Spelling) (x : Statement) :
    Prop where
  apart : x.isApart = true
  fitting : x.extent.range.stop = p → Fitting like s ss

namespace StatementReader

section Grown

variable {like : Likeness} {src : Source} {ss : List Spelling} {c c' : Cursor}

theorem Reads.apart {first : Token} {more : List Lexeme} (h : Reads src (.statement statement) c c')
    (hsits : Sits src c) (hrest : c.rest = ⟨[], first⟩ :: rest) (happart : statement.isApart)
    (hks : ks.head? = (spellings (⟨[], first⟩ :: more)).head?) : ks ≠ [] ∧ Apart ks := by
  unfold isApart at happart
  simp only [Bool.and_eq_true, Bool.not_eq_true'] at happart
  have helse := spelling_ne h hsits hrest (by decide) happart.1.2
  have hon := spelling_ne h hsits hrest (by decide) happart.2
  refine ⟨?_, fun other hother => ?_⟩
  · rintro rfl
    cases hks
  · obtain rfl := Option.some.inj (hks.symm.trans hother)
    exact ⟨Ne.symm helse, Ne.symm hon⟩

end Grown

end StatementReader

end Flowchart
