import Flowchart.Proofs.Cutting
import Flowchart.Syntax.FileReader

/-!
What the readers do, said once. A reader that succeeds takes some lexemes from the cursor and leaves
the rest; the relation `Reads` says for statements, handlers, conditions and blocks which readers
ran, one after another, and every successful run is in the relation.
-/
namespace Flowchart

open List Reader ExprReader

variable {c c' : Cursor} {lexeme : Lexeme} {rest lexemes : List Lexeme} {token : Token}
  {src : Source} {text : Text} {mark stop : Mark} {depth : Nat} {tokens : List Token}
  {value : Expr}

namespace Lexeme

/-- The tokens of some lexemes, comments included. -/
def flat : List Lexeme → List Token
  | [] => []
  | lexeme :: rest => lexeme.comments ++ lexeme.token :: flat rest

theorem flat_append (a b : List Lexeme) : flat (a ++ b) = flat a ++ flat b := by
  induction a with
  | nil => rfl
  | cons lexeme a ih => simp only [cons_append, flat, ih, append_assoc]

theorem map_token_ofTokens (pending tokens : List Token) :
    (ofTokens pending tokens).map Lexeme.token = tokens.filter (!·.isComment) := by
  induction tokens generalizing pending with
  | nil => rfl
  | cons token tokens ih =>
    unfold ofTokens
    rw [filter_cons]
    cases token.isComment with
    | true => exact ih _
    | false => exact congrArg (token :: ·) (ih [])

theorem flat_ofTokens (pending tokens : List Token) :
    ∃ trailing, pending ++ tokens = flat (ofTokens pending tokens) ++ trailing := by
  induction tokens generalizing pending with
  | nil => exact ⟨pending, by simp only [ofTokens, flat, append_nil, nil_append]⟩
  | cons token tokens ih =>
    unfold ofTokens
    split
    · obtain ⟨trailing, h⟩ := ih (pending ++ [token])
      rw [append_assoc] at h
      exact ⟨trailing, h⟩
    · obtain ⟨trailing, h⟩ := ih []
      refine ⟨trailing, ?_⟩
      rw [nil_append] at h
      simp only [flat, append_assoc, cons_append, ← h]

end Lexeme

namespace Cursor

open Lexeme Token

/-- The lexemes between two cursors. -/
structure Takes (c : Cursor) (taken : List Lexeme) (c' : Cursor) : Prop where
  rest : c.rest = taken ++ c'.rest
  last : c'.last = stopOf c.last (flat taken)
  log : c'.log = c.log

namespace Takes

theorem refl (c : Cursor) : c.Takes [] c := ⟨rfl, rfl, rfl⟩

theorem trans {c'' : Cursor} {a b : List Lexeme} (h : c.Takes a c') (h' : c'.Takes b c'') :
    c.Takes (a ++ b) c'' where
  rest := by rw [h.rest, h'.rest, append_assoc]
  last := by rw [h'.last, h.last, flat_append, stopOf_append]
  log := h'.log.trans h.log

end Takes

theorem next_eq (h : c.rest = lexeme :: rest) :
    c.next = { c with rest := rest, last := lexeme.token.stop } := by
  unfold next
  rw [h]

theorem takes_next (h : c.rest = lexeme :: rest) : c.Takes [lexeme] c.next := by
  rw [next_eq h]
  refine ⟨h, ?_, rfl⟩
  simp only [flat, stopOf_append, stopOf_cons, stopOf_nil]

theorem rest_of_peek? (h : c.peek? = some token) :
    ∃ comments, c.rest = ⟨comments, token⟩ :: c.next.rest := by
  unfold peek? at h
  cases hrest : c.rest with
  | nil =>
    rw [hrest] at h
    cases h
  | cons lexeme rest =>
    rw [hrest] at h
    cases h
    refine ⟨lexeme.comments, ?_⟩
    unfold next
    rw [hrest]

end Cursor

namespace Reader

open Cursor

theorem expect_eq_ok (h : expect src text c = .ok token c') :
    token.is text ∧ ∃ comments, c.Takes [⟨comments, token⟩] c' := by
  unfold expect at h
  split at h
  · cases h
  · next hpeek =>
    split at h
    · next htext =>
      cases h
      obtain ⟨comments, hrest⟩ := rest_of_peek? hpeek
      exact ⟨htext, comments, takes_next hrest⟩
    · cases h

theorem expectWord_eq_ok (h : expectWord src c = .ok token c') :
    token.isWord ∧ ∃ comments, c.Takes [⟨comments, token⟩] c' := by
  unfold expectWord at h
  split at h
  · cases h
  · next hpeek =>
    split at h
    · next hword =>
      cases h
      obtain ⟨comments, hrest⟩ := rest_of_peek? hpeek
      exact ⟨hword, comments, takes_next hrest⟩
    · cases h

theorem eat_eq_ok {found : Bool} (h : eat text c = .ok found c') :
    (found ∧ ∃ comments token, token.is text ∧ c.Takes [⟨comments, token⟩] c') ∨
      (found = false ∧ c' = c ∧ c.at? text = false) := by
  unfold eat at h
  split at h
  · next hat =>
    cases h
    refine .inl ⟨rfl, ?_⟩
    obtain ⟨token, hpeek, htext⟩ := (Option.any_eq_true _ _).mp hat
    obtain ⟨comments, hrest⟩ := rest_of_peek? hpeek
    exact ⟨comments, token, htext, takes_next hrest⟩
  · next hat =>
    cases h
    exact .inr ⟨rfl, rfl, eq_false_of_ne_true hat⟩

end Reader

theorem Token.is_of_is {other : Text} (h : token.is text) (hne : text ≠ other) :
    token.is other = false := by
  have htext : token.text = text := of_decide_eq_true h
  exact decide_eq_false (htext ▸ hne)

namespace TypeText

open Lexeme Token

/-- The token is the semicolon, and no string or comment that is spelled like it. -/
def isSemicolon (lexeme : Lexeme) : Bool :=
  lexeme.token.cls = .symbol && lexeme.token.is ";"

theorem isSemicolon_of_isWord (h : lexeme.token.isWord) : isSemicolon lexeme = false := by
  have hcls : lexeme.token.cls = .word := of_decide_eq_true h
  simp [isSemicolon, hcls]

/-- The signs of a type outside of angle brackets. -/
def signs : List Text := ["(", ")", "[", "]", "?", "|", "*", ":"]

/-- The lexeme is a word, a number or a sign that stands in a type outside of angle brackets. -/
def isPart (lexeme : Lexeme) : Bool :=
  lexeme.token.isWord || lexeme.token.isNumber || signs.contains lexeme.token.text

theorem isPart_of_isWord (h : lexeme.token.isWord) : isPart lexeme := by
  rw [isPart, h, Bool.true_or, Bool.true_or]

theorem isPart_of_is (h : lexeme.token.is text) (htext : signs.contains text) :
    isPart lexeme := by
  have htoken : lexeme.token.text = text := of_decide_eq_true h
  rw [isPart, htoken, htext, Bool.or_true]

/-- Parts of a type up to the first angle bracket, and from there on no semicolon. -/
def isTyped : List Lexeme → Bool
  | [] => true
  | lexeme :: lexemes =>
    if lexeme.token.is "<" then lexemes.all (!isSemicolon ·) else isPart lexeme && isTyped lexemes

theorem isSemicolon_of_isTyped (h : isTyped lexemes) :
    ∀ lexeme ∈ lexemes, isSemicolon lexeme = false := by
  induction lexemes with
  | nil => exact nofun
  | cons lexeme lexemes ih =>
    rw [isTyped] at h
    split at h
    · next hangle =>
      refine forall_mem_cons.mpr ⟨?_, fun other hmem => by simpa using all_eq_true.mp h other hmem⟩
      rw [isSemicolon, is_of_is hangle (by decide), Bool.and_false]
    · rw [Bool.and_eq_true] at h
      refine forall_mem_cons.mpr ⟨?_, ih h.2⟩
      by_contra hnot
      obtain ⟨hcls, htext⟩ := (Bool.and_eq_true _ _).mp (eq_true_of_ne_false hnot)
      have hcls : lexeme.token.cls = .symbol := of_decide_eq_true hcls
      have htext : lexeme.token.text = ";" := of_decide_eq_true htext
      simp [isPart, Token.isWord, Token.isNumber, hcls, htext, signs] at h

theorem isTyped_append {more : List Lexeme} (h : isTyped lexemes) (hmore : isTyped more) :
    isTyped (lexemes ++ more) := by
  induction lexemes with
  | nil => exact hmore
  | cons lexeme lexemes ih =>
    rw [cons_append, isTyped]
    rw [isTyped] at h
    split at h
    · next hangle =>
      rw [if_pos hangle, all_append, h, Bool.true_and, all_eq_true]
      exact fun other hmem => by rw [isSemicolon_of_isTyped hmore other hmem]; rfl
    · next hangle =>
      rw [Bool.and_eq_true] at h
      rw [if_neg hangle, h.1, ih h.2]
      rfl

/-- Going on from `mark`, a scan passes lexemes of a type and ends at `stop`. -/
def Passes (mark : Mark) (lexemes : List Lexeme) (stop : Mark) (rest : List Lexeme) : Prop :=
  ∃ taken, lexemes = taken ++ rest ∧ stop = stopOf mark (flat taken) ∧ isTyped taken = true

theorem Passes.refl (mark : Mark) (lexemes : List Lexeme) : Passes mark lexemes mark lexemes :=
  ⟨[], rfl, rfl, rfl⟩

theorem Passes.trans {between : Mark} {a b c : List Lexeme} (h : Passes mark a between b)
    (h' : Passes between b stop c) : Passes mark a stop c := by
  obtain ⟨taken, rfl, rfl, htyped⟩ := h
  obtain ⟨more, rfl, rfl, htyped'⟩ := h'
  refine ⟨taken ++ more, (append_assoc ..).symm, ?_, isTyped_append htyped htyped'⟩
  rw [flat_append, stopOf_append]

theorem Passes.cons {mark stop : Mark} {lexeme : Lexeme} {lexemes rest : List Lexeme}
    (hlexeme : isPart lexeme) (h : Passes lexeme.token.stop lexemes stop rest) :
    Passes mark (lexeme :: lexemes) stop rest := by
  refine .trans ⟨[lexeme], rfl, ?_, ?_⟩ h
  · rw [flat, stopOf_append]
    rfl
  · rw [isTyped, hlexeme]
    exact ite_self _

theorem Passes.length_le (h : Passes mark lexemes stop rest) : rest.length ≤ lexemes.length := by
  obtain ⟨taken, rfl, -, -⟩ := h
  rw [length_append]
  omega

/-- A scan passes the first lexeme, and from its end on some more. -/
def Starts (lexemes : List Lexeme) (stop : Mark) (rest : List Lexeme) : Prop :=
  ∃ first more, lexemes = first :: more ∧ isPart first = true ∧
    Passes first.token.stop more stop rest

theorem Starts.passes (h : Starts lexemes stop rest) (mark : Mark) :
    Passes mark lexemes stop rest := by
  obtain ⟨first, more, rfl, hfirst, hmore⟩ := h
  exact .cons hfirst hmore

theorem Starts.trans {between : List Lexeme} (h : Starts lexemes mark between)
    (h' : Passes mark between stop rest) : Starts lexemes stop rest := by
  obtain ⟨first, more, rfl, hfirst, hmore⟩ := h
  exact ⟨first, more, rfl, hfirst, hmore.trans h'⟩

theorem Starts.length_lt (h : Starts lexemes stop rest) : rest.length < lexemes.length := by
  obtain ⟨first, more, rfl, -, hmore⟩ := h
  have := hmore.length_le
  rw [length_cons]
  omega

/-- An argument list goes on to its closing bracket without a semicolon. -/
theorem angles_eq_found (h : angles depth lexemes = .found stop rest) :
    ∃ taken, lexemes = taken ++ rest ∧ (∀ mark, stop = stopOf mark (flat taken)) ∧
      taken.all (!isSemicolon ·) := by
  induction lexemes generalizing depth with
  | nil => cases h
  | cons lexeme lexemes ih =>
    have step {depth : Nat} (hlexeme : lexeme.token.is ";" = false)
        (h : angles depth lexemes = .found stop rest) : ∃ taken, lexeme :: lexemes = taken ++ rest ∧
          (∀ mark, stop = stopOf mark (flat taken)) ∧ taken.all (!isSemicolon ·) := by
      obtain ⟨taken, rfl, hstop, hopen⟩ := ih h
      refine ⟨lexeme :: taken, rfl, fun mark => ?_, ?_⟩
      · rw [flat, stopOf_append, stopOf_cons, ← hstop]
      · rw [all_cons, hopen, isSemicolon, hlexeme, Bool.and_false]
        rfl
    unfold angles at h
    split at h
    · next hopens => exact step (is_of_is hopens (by decide)) h
    · split at h
      · next hcloses =>
        split at h
        · cases h
          refine ⟨[lexeme], rfl, fun mark => ?_, ?_⟩
          · rw [flat, stopOf_append]
            rfl
          · rw [all_cons, isSemicolon, is_of_is hcloses (by decide), Bool.and_false]
            rfl
        · exact step (is_of_is hcloses (by decide)) h
      · split at h
        · cases h
        · next hends =>
          simp only [Bool.or_eq_true, not_or] at hends
          exact step (eq_false_of_ne_true hends.1.1) h

theorem arguments_eq_found (h : arguments mark lexemes = .found stop rest) :
    Passes mark lexemes stop rest := by
  unfold arguments at h
  split at h
  · cases h
    exact .refl _ _
  · split at h
    · next lexeme _ hopens =>
      obtain ⟨taken, rfl, hstop, hopen⟩ := angles_eq_found h
      refine ⟨lexeme :: taken, rfl, ?_, by rw [isTyped, if_pos hopens, hopen]⟩
      rw [flat, stopOf_append, stopOf_cons, ← hstop]
    · cases h
      exact .refl _ _

theorem name_eq_found (h : name lexemes = .found stop rest) : Starts lexemes stop rest := by
  unfold name at h
  split at h
  · cases h
  · next first lexemes =>
    split at h
    · next hword =>
      have hfirst := isPart_of_isWord hword
      split at h
      · split at h
        · next hqualified =>
          rw [Bool.and_eq_true] at hqualified
          exact ⟨first, _, rfl, hfirst, .cons (isPart_of_is hqualified.1 (by decide))
            (.cons (isPart_of_isWord hqualified.2) (arguments_eq_found h))⟩
        · exact ⟨first, _, rfl, hfirst, arguments_eq_found h⟩
      · exact ⟨first, _, rfl, hfirst, arguments_eq_found h⟩
    · cases h

theorem arrayTail_eq_found (h : arrayTail lexemes = .found stop rest) :
    Starts lexemes stop rest := by
  cases lexemes with
  | nil => cases h
  | cons size lexemes =>
    by_cases hsize : (size.token.isNumber || size.token.is "*")
    · simp only [arrayTail, if_pos hsize] at h
      have hopen : isPart size := by
        rcases (Bool.or_eq_true _ _).mp hsize with hnumber | hstar
        · rw [isPart, hnumber, Bool.or_true, Bool.true_or]
        · exact isPart_of_is hstar (by decide)
      cases lexemes with
      | nil => cases h
      | cons close lexemes =>
        dsimp only at h
        split at h
        · next hcloses =>
          cases h
          exact ⟨size, _, rfl, hopen, .cons (isPart_of_is hcloses (by decide)) (.refl _ _)⟩
        · cases h
    · simp only [arrayTail, if_neg hsize] at h
      split at h
      · next hcloses =>
        cases h
        exact ⟨size, _, rfl, isPart_of_is hcloses (by decide), .refl _ _⟩
      · cases h

mutual

theorem members_eq_found {depth bound : Nat} {lexemes rest : List Lexeme} {stop : Mark}
    (h : members depth bound lexemes = .found stop rest) : Starts lexemes stop rest := by
  cases bound with
  | zero => cases h
  | succ bound =>
    cases lexemes with
    | nil => cases h
    | cons lexeme lexemes =>
      unfold members at h
      split at h
      · next hopens =>
        exact ⟨lexeme, lexemes, rfl, isPart_of_is hopens (by decide),
          (members_eq_found h).passes _⟩
      · split at h
        · cases h
        · next mark left hname => exact (name_eq_found hname).trans (suffixes_eq_found h)

theorem suffixes_eq_found {depth bound : Nat} {mark stop : Mark} {lexemes rest : List Lexeme}
    (h : suffixes depth mark bound lexemes = .found stop rest) : Passes mark lexemes stop rest := by
  cases bound with
  | zero => cases h
  | succ bound =>
    cases lexemes with
    | nil =>
      unfold suffixes at h
      split at h
      · cases h
        exact .refl _ _
      · cases h
    | cons lexeme lexemes =>
      unfold suffixes at h
      split at h
      · next hquestion =>
        exact .cons (isPart_of_is hquestion (by decide)) (suffixes_eq_found h)
      split at h
      · next hbracket =>
        split at h
        · cases h
        · next closed left harray =>
          exact .cons (isPart_of_is hbracket (by decide))
            (((arrayTail_eq_found harray).passes _).trans (suffixes_eq_found h))
      split at h
      · next hbar =>
        exact .cons (isPart_of_is hbar (by decide)) ((members_eq_found h).passes _)
      split at h
      · cases h
        exact .refl _ _
      · split at h
        · next hcloses =>
          exact .cons (isPart_of_is hcloses (by decide)) (suffixes_eq_found h)
        · cases h

end

/-- A type is a stretch of lexemes from the first one on. -/
theorem scan_eq_found (h : scan lexemes = .found stop rest) :
    ∃ first more, lexemes = first :: (more ++ rest) ∧
      stop = stopOf first.token.stop (flat more) ∧ isTyped (first :: more) := by
  obtain ⟨first, lexemes, rfl, hfirst, more, rfl, hstop, hmore⟩ := members_eq_found h
  refine ⟨first, more, rfl, hstop, @isTyped_append [first] more ?_ hmore⟩
  rw [isTyped, hfirst]
  exact ite_self _

/-- The lexemes of a type with others after them, and the text that they stand for. -/
structure Names (src : Source) (lexemes rest : List Lexeme) (typeName : Text) : Prop where
  found : scan (lexemes ++ rest) = .found (stopOf {} (flat lexemes)) rest
  text : ∃ first more, lexemes = first :: more ∧
    typeName = src.slice first.token.start (stopOf {} (flat lexemes))

theorem read_eq_ok {typeName : Text} (h : read src c = .ok typeName c') :
    ∃ taken, c.Takes taken c' ∧ Names src taken c'.rest typeName := by
  unfold read at h
  split at h
  · cases h
  · next first rest hrest =>
    split at h
    · next stop left hscan =>
      cases h
      obtain ⟨first', more, hlexemes, hstop, -⟩ := scan_eq_found hscan
      have hflat : stopOf c.last (flat (first' :: more)) = stop := by
        simp only [flat, stopOf_append, stopOf_cons, hstop]
      have hempty : stopOf {} (flat (first' :: more)) = stop := by
        simp only [flat, stopOf_append, stopOf_cons, hstop]
      refine ⟨first' :: more, ⟨hlexemes, hflat.symm, rfl⟩, ?_, first', more, rfl, ?_⟩
      · rw [hempty, ← hscan, hlexemes, cons_append]
      · rw [hempty]
        rw [hrest] at hlexemes
        rw [(List.cons.inj hlexemes).1]
    · cases h
    · cases h

end TypeText

namespace Lexeme

def texts (lexemes : List Lexeme) : List Text := lexemes.map fun lexeme => lexeme.token.text

end Lexeme

namespace ExprReader

open Lexeme Token

def opens (text : Text) : Bool := text = "(" || text = "[" || text = "\x7b"

def closes (text : Text) : Bool := text = ")" || text = "]" || text = "\x7d"

/-- The texts of an expression before a stop symbol: with `depth` brackets open before them, every
bracket is closed, the stop symbol stands in brackets only and a semicolon nowhere. -/
def passes (stop : Text) : (depth : Nat) → List Text → Bool
  | depth, [] => depth == 0
  | depth, text :: rest =>
    if depth = 0 ∧ text = stop then false
    else if opens text then passes stop (depth + 1) rest
    else if closes text then
      match depth with
      | 0 => false
      | depth + 1 => passes stop depth rest
    else if text = ";" then false
    else passes stop depth rest

variable (more : List Text)

theorem passes_opening {stop : Text} (hstop : ¬ (depth = 0 ∧ text = stop)) (hopens : opens text) :
    passes stop depth (text :: more) = passes stop (depth + 1) more := by
  rw [passes.eq_def]
  simp only [if_neg hstop, if_pos hopens]

theorem passes_closing {stop : Text} (hopens : opens text = false) (hcloses : closes text) :
    passes stop (depth + 1) (text :: more) = passes stop depth more := by
  rw [passes.eq_def]
  simp only [Nat.add_eq_zero_iff, Nat.one_ne_zero, and_false, false_and, if_false, hopens,
    Bool.false_eq_true, if_pos hcloses]

theorem passes_plain {stop : Text} (hstop : ¬ (depth = 0 ∧ text = stop))
    (hopens : opens text = false) (hcloses : closes text = false) (hsemicolon : text ≠ ";") :
    passes stop depth (text :: more) = passes stop depth more := by
  rw [passes.eq_def]
  simp only [if_neg hstop, hopens, hcloses, Bool.false_eq_true, if_false, if_neg hsemicolon]

/-- The first of some texts that pass opens a bracket, closes one, or does neither. -/
theorem passes_cases {stop : Text} {more : List Text} (h : passes stop depth (text :: more)) :
    ¬ (depth = 0 ∧ text = stop) ∧
      ((opens text ∧ passes stop (depth + 1) more) ∨
        (opens text = false ∧ closes text ∧
          ∃ inner, depth = inner + 1 ∧ passes stop inner more) ∨
        (opens text = false ∧ closes text = false ∧ text ≠ ";" ∧ passes stop depth more)) := by
  rw [passes.eq_def] at h
  dsimp only at h
  split at h
  · cases h
  next hstop =>
  refine ⟨hstop, ?_⟩
  split at h
  · next hopens => exact .inl ⟨hopens, h⟩
  next hopens =>
  replace hopens := eq_false_of_ne_true hopens
  split at h
  · next hcloses =>
    cases depth with
    | zero => cases h
    | succ inner => exact .inr (.inl ⟨hopens, hcloses, inner, rfl, h⟩)
  next hcloses =>
  split at h
  · cases h
  · next hsemicolon =>
    exact .inr (.inr ⟨hopens, eq_false_of_ne_true hcloses, hsemicolon, h⟩)

/-- Texts that close their brackets can be passed inside of others, before more texts. -/
theorem passes_inside {stop stop' : Text} {offset : Nat} {a b : List Text} (h : passes stop depth a)
    (hstop : offset = 0 → stop' = stop ∨ stop' = ";") :
    passes stop' (depth + offset) (a ++ b) = passes stop' offset b := by
  induction a generalizing depth with
  | nil =>
    obtain rfl : depth = 0 := of_decide_eq_true h
    rw [Nat.zero_add, nil_append]
  | cons text a ih =>
    obtain ⟨hne, hcases⟩ := passes_cases h
    have hne' (hsemicolon : text ≠ ";") : ¬ (depth + offset = 0 ∧ text = stop') := by
      rintro ⟨hzero, rfl⟩
      obtain ⟨rfl, rfl⟩ := Nat.add_eq_zero_iff.mp hzero
      exact (hstop rfl).elim (fun heq => hne ⟨rfl, heq⟩) hsemicolon
    rw [cons_append]
    rcases hcases with ⟨hopens, hmore⟩ | ⟨hopens, hcloses, inner, rfl, hmore⟩ |
      ⟨hopens, hcloses, hsemicolon, hmore⟩
    · have hsemicolon : text ≠ ";" := by
        rintro rfl
        cases hopens
      rw [passes_opening _ (hne' hsemicolon) hopens, Nat.add_right_comm]
      exact ih hmore
    · rw [Nat.add_right_comm, passes_closing _ hopens hcloses]
      exact ih hmore
    · rw [passes_plain _ (hne' hsemicolon) hopens hcloses hsemicolon]
      exact ih hmore

theorem passes_enclosed {stop : Text} {texts : List Text} (h : passes stop depth texts) :
    passes stop (depth + 1) (texts ++ [(")" : Text)]) :=
  passes_inside h nofun

/-- Texts that close their brackets, one list after the other. -/
theorem passes_append {stop : Text} {a b : List Text} (ha : passes stop depth a)
    (hb : passes stop 0 b) : passes stop depth (a ++ b) :=
  (passes_inside ha fun _ => .inl rfl).trans hb

theorem is_iff : token.is text ↔ token.text = text :=
  decide_eq_true_iff

/-- What one more lexeme does to the number of open brackets. -/
theorem passes_texts {stop : Text} (h : passes stop depth (texts (lexeme :: lexemes))) :
    ¬ (depth = 0 ∧ lexeme.token.is stop) ∧
      ((lexeme.token.opens ∧ passes stop (depth + 1) (texts lexemes)) ∨
        (¬ lexeme.token.opens ∧ lexeme.token.closes ∧
          ∃ inner, depth = inner + 1 ∧ passes stop inner (texts lexemes)) ∨
        (¬ lexeme.token.opens ∧ ¬ lexeme.token.closes ∧ ¬ lexeme.token.is ";" ∧
          passes stop depth (texts lexemes))) := by
  have hcases := passes_cases h
  rw [← is_iff, ← Bool.not_eq_true, ← Bool.not_eq_true, ne_eq, ← is_iff] at hcases
  exact hcases

theorem collect_eq_ok {stop : Text} (h : collect src stop depth lexemes = .ok (tokens, rest)) :
    ∃ taken, lexemes = taken ++ rest ∧ tokens = taken.map Lexeme.token ∧
      passes stop depth (texts taken) ∧
        ∃ next more, rest = next :: more ∧ next.token.is stop := by
  induction lexemes generalizing depth tokens with
  | nil => cases h
  | cons lexeme lexemes ih =>
    -- What one more token of the expression comes to, whatever it does to the depth.
    have step {inner : Nat} (hpasses : ∀ more, passes stop inner more →
          passes stop depth (lexeme.token.text :: more))
        (h : (collect src stop inner lexemes >>= fun found =>
          pure (lexeme.token :: found.1, found.2)) = .ok (tokens, rest)) :
        ∃ taken, lexeme :: lexemes = taken ++ rest ∧ tokens = taken.map Lexeme.token ∧
          passes stop depth (texts taken) ∧
            ∃ next more, rest = next :: more ∧ next.token.is stop := by
      obtain ⟨⟨tokens', rest'⟩, hcollect, hpair⟩ := Except.bind_eq_ok h
      cases hpair
      obtain ⟨taken, rfl, rfl, htaken, hnext⟩ := ih hcollect
      exact ⟨lexeme :: taken, rfl, rfl, hpasses _ htaken, hnext⟩
    unfold collect at h
    dsimp only at h
    split at h
    · next hstop =>
      cases h
      exact ⟨[], rfl, rfl, beq_iff_eq.mpr hstop.1, lexeme, lexemes, rfl, hstop.2⟩
    next hstop =>
    have hstop' : ¬ (depth = 0 ∧ lexeme.token.text = stop) :=
      fun hboth => hstop ⟨hboth.1, is_iff.mpr hboth.2⟩
    split at h
    · next hopens =>
      exact step (fun more hmore => (passes_opening more hstop' hopens).trans hmore) h
    next hopens =>
    split at h
    · next hcloses =>
      split at h
      · cases h
      · exact step (fun more hmore =>
          (passes_closing more (eq_false_of_ne_true hopens) hcloses).trans hmore) h
    next hcloses =>
    split at h
    · cases h
    next hsemicolon =>
    exact step (fun more hmore => (passes_plain more hstop' (eq_false_of_ne_true hopens)
      (eq_false_of_ne_true hcloses) (fun htext => hsemicolon (is_iff.mpr htext))).trans hmore) h

theorem matchBack_eq_some {inner before found : List Token}
    (h : matchBack depth inner tokens = some (before, found)) :
    ∃ opening between, tokens = between ++ opening :: before ∧ opening.is "(" ∧
      found = between.reverse ++ inner := by
  induction tokens generalizing depth inner with
  | nil => cases h
  | cons token tokens ih =>
    have hstep {depth : Nat} (h : matchBack depth (token :: inner) tokens = some (before, found)) :
        ∃ opening between, token :: tokens = between ++ opening :: before ∧
          opening.is "(" ∧ found = between.reverse ++ inner := by
      obtain ⟨opening, between, rfl, hopening, rfl⟩ := ih h
      exact ⟨opening, token :: between, rfl, hopening, by simp⟩
    unfold matchBack at h
    split at h
    · exact hstep h
    · split at h
      · next hopening =>
        split at h
        · cases h
          exact ⟨token, [], rfl, hopening, rfl⟩
        · exact hstep h
      · exact hstep h

/-- A call is something before parentheses that the tokens end with. -/
theorem callParts?_eq_some {head inner : List Token} (h : callParts? tokens = some (head, inner)) :
    ∃ opening closing, tokens = head ++ opening :: (inner ++ [closing]) ∧
      opening.is "(" ∧ closing.is ")" ∧ head ≠ [] := by
  unfold callParts? at h
  split at h
  · cases h
  · next last before hreverse =>
    split at h
    · next hlast =>
      split at h
      · next found hmatch =>
        split at h
        · cases h
        · next hne =>
          cases h
          obtain ⟨opening, between, rfl, hopening, hinner⟩ := matchBack_eq_some hmatch
          refine ⟨opening, last, ?_, hopening, hlast, ?_⟩
          · rw [← reverse_reverse tokens, hreverse, hinner]
            simp
          · simpa using hne
      · cases h
    · cases h

theorem splitCommas_eq_cons (depth : Nat) (tokens : List Token) :
    ∃ group more, splitCommas depth tokens = group :: more ∧ group <+: tokens ∧
      ∀ other ∈ more, other <:+: tokens := by
  induction tokens generalizing depth with
  | nil => exact ⟨[], [], rfl, nil_prefix, nofun⟩
  | cons token tokens ih =>
    unfold splitCommas
    split
    · obtain ⟨group, more, hsplit, hgroup, hmore⟩ := ih depth
      refine ⟨[], _, rfl, nil_prefix, fun other hother => ?_⟩
      rw [hsplit] at hother
      rcases mem_cons.mp hother with rfl | hmem
      · exact hgroup.isInfix.trans (suffix_cons token tokens).isInfix
      · exact (hmore other hmem).trans (suffix_cons token tokens).isInfix
    · dsimp only
      obtain ⟨group, more, hsplit, hgroup, hmore⟩ :=
        ih (if token.opens then depth + 1 else if token.closes then depth - 1 else depth)
      rw [hsplit]
      refine ⟨token :: group, more, rfl, (prefix_cons_inj token).mpr hgroup,
        fun other hother => ?_⟩
      exact (hmore other hother).trans (suffix_cons token tokens).isInfix

theorem splitCommas_within {group : List Token} (h : group ∈ splitCommas depth tokens) :
    group <:+: tokens := by
  obtain ⟨first, more, hsplit, hfirst, hmore⟩ := splitCommas_eq_cons depth tokens
  rw [hsplit] at h
  rcases mem_cons.mp h with rfl | hmem
  · exact hfirst.isInfix
  · exact hmore group hmem

/-- The tokens of an argument stand next to each other among those of the call. -/
theorem argument_within {head inner group : List Token}
    (hparts : callParts? tokens = some (head, inner)) (hgroup : group ∈ argumentGroups inner) :
    group <:+: tokens ∧ group ≠ [] := by
  obtain ⟨opening, closing, hsplit, -⟩ := callParts?_eq_some hparts
  obtain ⟨hmem, hfull⟩ := mem_filter.mp hgroup
  have hinner : inner <:+: tokens := ⟨head ++ [opening], [closing], by rw [hsplit]; simp⟩
  exact ⟨(splitCommas_within hmem).trans hinner, by simpa using hfull⟩

/-- The shapes of an expression, and the tokens of its parts. -/
theorem ofTokens_cases (src : Source) (bound : Nat) (tokens : List Token) :
    ofTokens src bound tokens = .other (extentOf src tokens) ∨
    (∃ inside first rest, bound = inside + 1 ∧ tokens = first :: rest ∧ rest ≠ [] ∧
      (first.is "check" || first.is "checkpanic") ∧ ofTokens src bound tokens =
        .check (extentOf src tokens) (first.is "checkpanic") (ofTokens src inside rest)) ∨
    ∃ inside head inner callee, bound = inside + 1 ∧ callParts? tokens = some (head, inner) ∧
      (∀ first ∈ tokens.head?, ¬ (first.is "check" || first.is "checkpanic")) ∧
      callee? src head = some callee ∧ ofTokens src bound tokens =
        .call (extentOf src tokens) callee ((argumentGroups inner).map (ofTokens src inside)) := by
  generalize h : ofTokens src bound tokens = value
  cases bound with
  | zero => exact .inl h.symm
  | succ inside =>
    unfold ofTokens at h
    split at h
    · next first second more =>
      split at h
      · next hcheck =>
        exact .inr (.inl ⟨inside, first, _, rfl, rfl, cons_ne_nil _ _, hcheck, h.symm⟩)
      next hcheck =>
      split at h
      · exact .inl h.symm
      next head inner hparts =>
      split at h
      · exact .inl h.symm
      · next callee hcallee =>
        refine .inr (.inr ⟨inside, head, inner, callee, rfl, hparts, ?_, hcallee, h.symm⟩)
        rintro _ ⟨⟩
        exact hcheck
    · exact .inl h.symm

/-- The lexemes of an expression before a stop symbol, and the expression. -/
structure Forms (src : Source) (stop : Text) (lexemes : List Lexeme) (value : Expr) : Prop where
  nonempty : lexemes ≠ []
  passes : passes stop 0 (texts lexemes) = true
  value : value = ofTokens src lexemes.length (lexemes.map Lexeme.token)

theorem stopOf_flat_of_getLast? {mark : Mark} {lexemes : List Lexeme} {last : Token}
    (h : (lexemes.map Lexeme.token).getLast? = some last) :
    stopOf mark (flat lexemes) = last.stop := by
  induction lexemes generalizing mark with
  | nil => cases h
  | cons lexeme lexemes ih =>
    rw [flat, stopOf_append, stopOf_cons]
    cases lexemes with
    | nil =>
      cases h
      rfl
    | cons second lexemes =>
      exact ih h

theorem readUntil_eq_ok {stop : Text} (h : readUntil src stop c = .ok value c') :
    c'.at? stop ∧ ∃ taken, c.Takes taken c' ∧ Forms src stop taken value := by
  unfold readUntil at h
  split at h
  · cases h
  · next tokens rest hcollect =>
    obtain ⟨taken, hrest, rfl, hpasses, next, more, rfl, hnext⟩ := collect_eq_ok hcollect
    split at h
    · next last hlast =>
      cases h
      have hne : taken ≠ [] := by
        rintro rfl
        cases hlast
      refine ⟨hnext, taken, ⟨hrest, (stopOf_flat_of_getLast? hlast).symm, rfl⟩, hne, hpasses, ?_⟩
      rw [length_map]
    · cases h

end ExprReader

namespace StatementReader

open Lexeme Token Reader Cursor

theorem valueToSemicolon_eq_ok (h : valueToSemicolon src c = .ok value c') :
    ∃ taken semicolon, c.Takes (taken ++ [semicolon]) c' ∧ semicolon.token.is ";" ∧
      Forms src ";" taken value := by
  obtain ⟨found, next, hvalue, h⟩ := bind_eq_ok h
  obtain ⟨token, last, hexpect, h⟩ := bind_eq_ok h
  cases h
  obtain ⟨-, taken, htaken, hforms⟩ := readUntil_eq_ok hvalue
  obtain ⟨hsemicolon, comments, hlast⟩ := expect_eq_ok hexpect
  exact ⟨taken, ⟨comments, token⟩, htaken.trans hlast, hsemicolon, hforms⟩

/-- The lexemes of what may follow the name of a declaration, and the value in them. -/
inductive Initial (src : Source) : List Lexeme → Option Expr → Prop
  | none {semicolon : Lexeme} (h : semicolon.token.is ";" = true) : Initial src [semicolon] .none
  | some {equals semicolon : Lexeme} {taken : List Lexeme} {value : Expr}
      (hequals : equals.token.is "=" = true) (hvalue : Forms src ";" taken value)
      (hsemicolon : semicolon.token.is ";" = true) :
      Initial src (equals :: (taken ++ [semicolon])) (.some value)

theorem initializer_eq_ok {init : Option Expr} (h : initializer src c = .ok init c') :
    ∃ taken, c.Takes taken c' ∧ Initial src taken init := by
  obtain ⟨found, next, heat, hrest⟩ := bind_eq_ok h
  rcases eat_eq_ok heat with ⟨rfl, comments, equals, hequals, htakes⟩ | ⟨rfl, rfl, -⟩
  · obtain ⟨value, after, hvalue, hend⟩ := bind_eq_ok hrest
    obtain ⟨found, hfound, rfl⟩ := map_eq_ok hvalue
    obtain ⟨token, last, hexpect, hdone⟩ := bind_eq_ok hend
    cases hdone
    obtain ⟨-, taken, htaken, hforms⟩ := readUntil_eq_ok hfound
    obtain ⟨hsemicolon, comments', hlast⟩ := expect_eq_ok hexpect
    exact ⟨_, htakes.trans (htaken.trans hlast), .some hequals hforms hsemicolon⟩
  · obtain ⟨value, after, hvalue, hend⟩ := bind_eq_ok hrest
    cases hvalue
    obtain ⟨token, last, hexpect, hdone⟩ := bind_eq_ok hend
    cases hdone
    obtain ⟨hsemicolon, comments, hlast⟩ := expect_eq_ok hexpect
    exact ⟨_, hlast, .none hsemicolon⟩

theorem afterEquals_split (h : afterEquals lexemes ≠ []) :
    ∃ before equals, lexemes = before ++ equals :: afterEquals lexemes ∧
      equals.token.is "=" ∧ ∀ lexeme ∈ before, lexeme.token.is "=" = false := by
  induction lexemes with
  | nil => exact absurd rfl h
  | cons lexeme lexemes ih =>
    by_cases hequals : lexeme.token.is "="
    · refine ⟨[], lexeme, ?_, hequals, nofun⟩
      rw [afterEquals, if_pos hequals, nil_append]
    · have hnext : afterEquals (lexeme :: lexemes) = afterEquals lexemes := by
        rw [afterEquals, if_neg hequals]
      rw [hnext] at h ⊢
      obtain ⟨before, equals, hsplit, hfound, hbefore⟩ := ih h
      refine ⟨lexeme :: before, equals, by rw [cons_append, ← hsplit], hfound, ?_⟩
      intro other hother
      rcases mem_cons.mp hother with rfl | hmem
      · exact eq_false_of_ne_true hequals
      · exact hbefore other hmem

/-- A type, a name and then an equals sign or a semicolon stand here. -/
def declares (lexemes : List Lexeme) : Bool :=
  match TypeText.scan lexemes with
  | .found _ (name :: follow :: _) =>
    name.token.isWord && (follow.token.is "=" || follow.token.is ";")
  | _ => false

/-- The lexemes of a declaration, an assignment or an expression with others after them, and what
they are read as. -/
inductive Simple (src : Source) (rest : List Lexeme) : List Lexeme → Shape → Prop
  | declaration {final typed tail : List Lexeme} {isFinal : Bool} {name : Lexeme} {typeName : Text}
      {init : Option Expr}
      (hfinal : (isFinal = true ∧ ∃ word, final = [word] ∧ word.token.is "final" = true) ∨
        (isFinal = false ∧ final = [] ∧ typed.head?.any (·.token.is "final") = false))
      (htyped : TypeText.Names src typed (name :: (tail ++ rest)) typeName)
      (hname : name.token.isWord = true) (htail : Initial src tail init) :
      Simple src rest (final ++ (typed ++ name :: tail))
        (.varDecl · isFinal typeName name.token.text init)
  | assignment {before taken : List Lexeme} {first equals semicolon : Lexeme} {stop : Mark}
      {value : Expr} (hfinal : first.token.is "final" = false)
      (hdeclares : declares (first :: before ++ equals :: (taken ++ semicolon :: rest)) = false)
      (hbefore : ∀ lexeme ∈ first :: before, lexeme.token.is "=" = false)
      (hequals : equals.token.is "=" = true) (hvalue : Forms src ";" taken value)
      (hsemicolon : semicolon.token.is ";" = true)
      (hstop : targetStop? 0 none (first :: before ++ equals :: (taken ++ semicolon :: rest)) =
        some stop) :
      Simple src rest (first :: before ++ equals :: (taken ++ [semicolon]))
        (.assign · (Text.trim (src.slice first.token.start stop)) value)
  | expression {taken : List Lexeme} {semicolon : Lexeme} {value : Expr}
      (hfinal : taken.head?.any (·.token.is "final") = false)
      (hdeclares : declares (taken ++ semicolon :: rest) = false)
      (hstop : targetStop? 0 none (taken ++ semicolon :: rest) = none)
      (hvalue : Forms src ";" taken value)
      (hsemicolon : semicolon.token.is ";" = true) :
      Simple src rest (taken ++ [semicolon]) (.expression · value)

theorem declaration?_eq_some {next : Cursor} {typeName name : Text}
    (h : declaration? src c = some (typeName, name, next)) :
    ∃ typed word, c.Takes (typed ++ [word]) next ∧
      TypeText.Names src typed (word :: next.rest) typeName ∧ word.token.isWord ∧
      word.token.text = name := by
  unfold declaration? at h
  split at h
  · next first rest stop word follow left hrest hscan =>
    split at h
    · next hword =>
      cases h
      rw [Bool.and_eq_true] at hword
      obtain ⟨first', more, hlexemes, hstop, -⟩ := TypeText.scan_eq_found hscan
      have hflat : stopOf {} (flat (first' :: more)) = stop := by
        simp only [flat, stopOf_append, stopOf_cons, hstop]
      have hfirst : first = first' := by
        rw [hrest] at hlexemes
        exact (List.cons.inj hlexemes).1
      refine ⟨first' :: more, word, ⟨?_, ?_, rfl⟩, ⟨?_, first', more, rfl, ?_⟩, hword.1, rfl⟩
      · rw [hlexemes]
        simp
      · simp only [flat_append, flat, stopOf_append, stopOf_cons, stopOf_nil]
      · rw [hflat, ← hscan, hlexemes, cons_append]
      · rw [hflat, hfirst]
    · cases h
  · cases h

theorem declaration?_eq_none : declaration? src c = none ↔ declares c.rest = false := by
  unfold declaration? declares
  cases hrest : c.rest with
  | nil => exact ⟨fun _ => rfl, fun _ => rfl⟩
  | cons first rest =>
    cases TypeText.scan (first :: rest) with
    | failed left => exact ⟨fun _ => rfl, fun _ => rfl⟩
    | found stop left =>
      rcases left with _ | ⟨name, _ | ⟨follow, left⟩⟩
      · exact ⟨fun _ => rfl, fun _ => rfl⟩
      · exact ⟨fun _ => rfl, fun _ => rfl⟩
      · dsimp only
        split
        · next hword => exact ⟨fun h => (nomatch h), fun h => absurd (h.symm.trans hword) (by decide)⟩
        · next hword => exact ⟨fun _ => eq_false_of_ne_true hword, fun _ => rfl⟩

theorem targetStop?_equals (h : lexeme.token.is "=") :
    targetStop? 0 none (lexeme :: rest) = none := by
  have htext : lexeme.token.text = "=" := is_iff.mp h
  have hopens : lexeme.token.opens = false := by
    simp only [Token.opens, Token.is, htext]
    decide
  have hcloses : lexeme.token.closes = false := by
    simp only [Token.closes, Token.is, htext]
    decide
  have hsemicolon : lexeme.token.is ";" = false := by
    simp only [Token.is, htext]
    decide
  rw [targetStop?.eq_def]
  simp only [hopens, hcloses, hsemicolon, h, Bool.false_eq_true, and_false, and_self, if_false,
    if_true]

theorem assignment_eq_ok {first : Token} (hfinal : c.at? "final" = false)
    (hdeclares : declares c.rest = false) (hpeek : c.peek? = some first)
    (hstop : targetStop? 0 none c.rest = some stop)
    (h : valueToSemicolon src { c with rest := afterEquals c.rest } = .ok value c') :
    ∃ taken, c.Takes taken c' ∧
      Simple src c'.rest taken (.assign · (Text.trim (src.slice first.start stop)) value) := by
  obtain ⟨taken, semicolon, htakes, hsemicolon, hforms⟩ := valueToSemicolon_eq_ok h
  have hafter : afterEquals c.rest = taken ++ [semicolon] ++ c'.rest := htakes.rest
  have hne : afterEquals c.rest ≠ [] := by
    rw [hafter]
    simp
  obtain ⟨before, equals, hsplit, hequals, hbefore⟩ := afterEquals_split hne
  rw [hafter] at hsplit
  cases before with
  | nil =>
    rw [hsplit, nil_append, targetStop?_equals hequals] at hstop
    cases hstop
  | cons head before =>
    obtain rfl : head.token = first := by
      unfold peek? at hpeek
      rw [hsplit] at hpeek
      exact Option.some.inj hpeek
    refine ⟨head :: before ++ equals :: (taken ++ [semicolon]), ⟨?_, ?_, htakes.log⟩, ?_⟩
    · rw [hsplit]
      simp
    · rw [htakes.last]
      simp only [flat_append, flat, stopOf_append, stopOf_cons]
    · rw [at?, hpeek] at hfinal
      rw [hsplit, append_assoc] at hstop hdeclares
      exact .assignment hfinal hdeclares hbefore hequals hforms hsemicolon hstop

theorem simple_eq_ok {make : Shape} (h : simple src c = .ok make c') :
    ∃ taken, c.Takes taken c' ∧ Simple src c'.rest taken make := by
  obtain ⟨isFinal, next, heat, hrest⟩ := bind_eq_ok h
  rw [get_bind] at hrest
  have hfinal : ∃ final, c.Takes final next ∧
      ((isFinal ∧ ∃ word, final = [word] ∧ word.token.is "final") ∨
        (isFinal = false ∧ final = [] ∧ next = c ∧ c.at? "final" = false)) := by
    rcases eat_eq_ok heat with ⟨rfl, comments, word, hword, htakes⟩ | ⟨rfl, rfl, hat⟩
    · exact ⟨_, htakes, .inl ⟨rfl, _, rfl, hword⟩⟩
    · exact ⟨[], .refl _, .inr ⟨rfl, rfl, rfl, hat⟩⟩
  obtain ⟨final, htakes, hfinal⟩ := hfinal
  cases hdeclaration : declaration? src next with
  | some found =>
    obtain ⟨typeName, name, after⟩ := found
    rw [hdeclaration] at hrest
    dsimp only at hrest
    rw [set_bind] at hrest
    obtain ⟨init, last, hinit, hdone⟩ := bind_eq_ok hrest
    cases hdone
    obtain ⟨typed, word, hafter, htyped, hword, rfl⟩ := declaration?_eq_some hdeclaration
    obtain ⟨tail, htail, hinitial⟩ := initializer_eq_ok hinit
    have hall := htakes.trans (hafter.trans htail)
    rw [append_assoc] at hall
    rw [htail.rest] at htyped
    refine ⟨_, hall, .declaration ?_ htyped hword hinitial⟩
    refine hfinal.imp_right ?_
    rintro ⟨hisFinal, hnil, rfl, hat⟩
    refine ⟨hisFinal, hnil, ?_⟩
    obtain ⟨first, more, rfl, -⟩ := htyped.text
    rw [at?, peek?, hafter.rest] at hat
    exact hat
  | none =>
    rw [hdeclaration] at hrest
    rcases hfinal with ⟨rfl, -⟩ | ⟨rfl, rfl, rfl, hat⟩
    · cases hpeek : next.peek? with
      | none =>
        rw [hpeek] at hrest
        cases hrest
      | some token =>
        rw [hpeek] at hrest
        cases hrest
    rw [if_neg Bool.false_ne_true] at hrest
    have hdeclares := declaration?_eq_none.mp hdeclaration
    have hplain (hstop : targetStop? 0 none next.rest = none)
        (hvalue : (valueToSemicolon src >>= fun value =>
          pure fun extent => Statement.expression extent value) next = .ok make c') :
        ∃ taken, next.Takes taken c' ∧ Simple src c'.rest taken make := by
      obtain ⟨value, last, hvalue, hdone⟩ := bind_eq_ok hvalue
      cases hdone
      obtain ⟨taken, semicolon, htaken, hsemicolon, hforms⟩ := valueToSemicolon_eq_ok hvalue
      have hlexemes := htaken.rest
      rw [append_assoc] at hlexemes
      rw [hlexemes] at hstop hdeclares
      refine ⟨_, htaken, .expression ?_ hdeclares hstop hforms hsemicolon⟩
      rw [at?, peek?, hlexemes] at hat
      cases taken with
      | nil => rfl
      | cons first taken => exact hat
    cases hpeek : next.peek? with
    | none =>
      rw [hpeek] at hrest
      have hnil : next.rest = [] := by
        cases hnext : next.rest with
        | nil => rfl
        | cons first rest =>
          rw [peek?, hnext] at hpeek
          cases hpeek
      exact hplain (by rw [hnil]; rfl) hrest
    | some first =>
      cases hstop : targetStop? 0 none next.rest with
      | none =>
        rw [hpeek, hstop] at hrest
        exact hplain hstop hrest
      | some stop =>
        rw [hpeek, hstop] at hrest
        dsimp only at hrest
        rw [set_bind] at hrest
        obtain ⟨value, last, hvalue, hdone⟩ := bind_eq_ok hrest
        cases hdone
        exact assignment_eq_ok hat hdeclares hpeek hstop hvalue

end StatementReader

end Flowchart
