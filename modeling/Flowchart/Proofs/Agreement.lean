import Flowchart.Proofs.Reading
import Flowchart.Proofs.Spelling

/-!
Readers look at spellings only. Where lexemes are spelled alike, up to the last one that is looked
at, the readers of types, of expressions and of simple statements take the same number of them,
whatever follows.
-/
namespace Flowchart

open List

variable {text : Text} {a b taken taken' rest more lexemes lexemes' before : List Lexeme}
  {depth : Nat} {stop mark : Mark} {first semicolon : Lexeme}

namespace Token

theorem text_eq_iff {token : Token} (hcomment : token.isComment = false) (htext : '\n' ∉ text) :
    token.text = text ↔ token.spelling.text = text := by
  unfold spelling
  cases hcls : token.cls with
  | comment => simp [isComment, hcls] at hcomment
  | word | number | symbol => exact Iff.rfl
  | quoted =>
    by_cases hfeed : '\n' ∈ token.text
    · have hleft : token.text ≠ text := by
        rintro rfl
        exact htext hfeed
      have hright : "\n" ≠ text := by
        rintro rfl
        exact htext (by decide)
      simp only [Spelling.of, if_pos hfeed, hleft, hright]
    · simp only [Spelling.of, if_neg hfeed]

/-- Tokens that no reader tells apart. Neither is a comment. -/
structure Same (a b : Token) : Prop where
  spelling : a.spelling = b.spelling
  proper : a.isComment = false

namespace Same

variable {a b : Token}

theorem cls (h : Same a b) : a.cls = b.cls := by
  have hspelling := congrArg Spelling.cls h.spelling
  rwa [Token.spelling, Token.spelling, Spelling.cls_of, Spelling.cls_of] at hspelling

theorem symm (h : Same a b) : Same b a := by
  refine ⟨h.spelling.symm, ?_⟩
  have hproper := h.proper
  unfold isComment at hproper ⊢
  rwa [← h.cls]

theorem is (h : Same a b) (htext : '\n' ∉ text) : a.is text = b.is text := by
  have hiff := text_eq_iff h.proper htext
  rw [h.spelling, ← text_eq_iff h.symm.proper htext] at hiff
  exact decide_eq_decide.mpr hiff

theorem isWord (h : Same a b) : a.isWord = b.isWord := by
  unfold Token.isWord
  rw [h.cls]

theorem isNumber (h : Same a b) : a.isNumber = b.isNumber := by
  unfold Token.isNumber
  rw [h.cls]

theorem opens (h : Same a b) : a.opens = b.opens := by
  unfold Token.opens
  rw [h.is (by decide), h.is (by decide), h.is (by decide)]

theorem closes (h : Same a b) : a.closes = b.closes := by
  unfold Token.closes
  rw [h.is (by decide), h.is (by decide), h.is (by decide)]

theorem text_of_isWord (h : Same a b) (hword : a.isWord) : a.text = b.text := by
  have hcls : a.cls = .word := of_decide_eq_true hword
  have hspelling := h.spelling
  unfold Token.spelling at hspelling
  rw [← h.cls, hcls] at hspelling
  exact congrArg Spelling.text hspelling

end Same

end Token

namespace Lexeme

/-- Lexemes with tokens that no reader tells apart, one by one. -/
inductive Alike : List Lexeme → List Lexeme → Prop
  | nil : Alike [] []
  | cons {a b : Lexeme} {as bs : List Lexeme} (hfirst : a.token.Same b.token)
      (hrest : Alike as bs) : Alike (a :: as) (b :: bs)

def spellings (lexemes : List Lexeme) : List Spelling := lexemes.map (·.token.spelling)

theorem Alike.length_eq (h : Alike a b) : a.length = b.length := by
  induction h with
  | nil => rfl
  | cons _ _ ih => rw [length_cons, length_cons, ih]

theorem Alike.symm (h : Alike a b) : Alike b a := by
  induction h with
  | nil => exact .nil
  | cons hfirst _ ih => exact .cons hfirst.symm ih

theorem Alike.append {a' b' : List Lexeme} (h : Alike a a') (h' : Alike b b') :
    Alike (a ++ b) (a' ++ b') := by
  induction h with
  | nil => exact h'
  | cons hfirst _ ih => exact .cons hfirst ih

theorem Alike.split {l : List Lexeme} (h : Alike (a ++ b) l) :
    ∃ a' b', l = a' ++ b' ∧ Alike a a' ∧ Alike b b' := by
  induction a generalizing l with
  | nil => exact ⟨[], l, rfl, .nil, h⟩
  | cons lexeme a ih =>
    cases h with
    | @cons _ lexeme' _ l hfirst hrest =>
      obtain ⟨a', b', rfl, ha, hb⟩ := ih hrest
      exact ⟨lexeme' :: a', b', rfl, .cons hfirst ha, hb⟩

theorem Alike.head?_is (h : Alike a b) (htext : '\n' ∉ text) :
    a.head?.any (·.token.is text) = b.head?.any (·.token.is text) := by
  cases h with
  | nil => rfl
  | cons hfirst _ => exact hfirst.is htext

theorem Alike.all_is (h : Alike a b) (htext : '\n' ∉ text)
    (hall : ∀ lexeme ∈ a, lexeme.token.is text = false) :
    ∀ lexeme ∈ b, lexeme.token.is text = false := by
  induction h with
  | nil => exact nofun
  | cons hfirst _ ih =>
    intro lexeme hmem
    rcases mem_cons.mp hmem with rfl | hrest
    · exact (hfirst.is htext).symm.trans (hall _ mem_cons_self)
    · exact ih (fun other hother => hall other (mem_cons_of_mem _ hother)) lexeme hrest

theorem alike_of_spellings (h : spellings a = spellings b)
    (hproper : ∀ lexeme ∈ a, lexeme.token.isComment = false) : Alike a b := by
  induction a generalizing b with
  | nil =>
    obtain rfl := map_eq_nil_iff.mp h.symm
    exact .nil
  | cons lexeme a ih =>
    obtain ⟨lexeme', b, rfl, hspelling, hrest⟩ := map_eq_cons_iff.mp h.symm
    exact .cons ⟨hspelling.symm, hproper lexeme mem_cons_self⟩
      (ih hrest.symm (forall_mem_cons.mp hproper).2)

end Lexeme

/-- What is compared where two scans run side by side: lexemes whose tokens no reader tells apart, and
the marks at which they stop. -/
structure Lexeme.Pairing where
  lexemes : Lexeme → Lexeme → Prop
  marks : Mark → Mark → Prop
  same {a b : Lexeme} : lexemes a b → a.token.Same b.token
  stop {a b : Lexeme} : lexemes a b → marks a.token.stop b.token.stop

/-- Lexemes that are paired one by one up to `rest` and `rest'`. -/
inductive Lexeme.Paired (pairs : Pairing) (rest rest' : List Lexeme) :
    List Lexeme → List Lexeme → Prop
  | done : Paired pairs rest rest' rest rest'
  | cons {a b : Lexeme} {as bs : List Lexeme} (hfirst : pairs.lexemes a b)
      (hmore : Paired pairs rest rest' as bs) : Paired pairs rest rest' (a :: as) (b :: bs)

theorem Lexeme.Paired.eq_of_length {pairs : Pairing} {rest' : List Lexeme}
    (h : Paired pairs rest rest' lexemes lexemes') (hlength : lexemes.length = rest.length) :
    lexemes' = rest' := by
  have hle {a b : List Lexeme} (h : Paired pairs rest rest' a b) : rest.length ≤ a.length := by
    induction h with
    | done => exact Nat.le_refl _
    | cons _ _ ih => exact Nat.le_succ_of_le ih
  cases h with
  | done => rfl
  | cons _ hmore => exact absurd (hlength ▸ hle hmore) (Nat.not_succ_le_self _)

namespace TypeText

open Lexeme

/-- The type ends among the lexemes from `rest` on, or before a colon right before them. -/
def Scan.IsPast (rest : List Lexeme) (scan : Scan) : Prop :=
  ∀ stop left, scan = .found stop left →
    left.length ≤ rest.length ∨ ∃ colon, colon.token.is ":" = true ∧ left = colon :: rest

/-- Both scans find the end of a type among the paired lexemes, or both stop at a paired one, unless
the first looks past them. -/
inductive Scan.Paired (pairs : Pairing) (rest rest' : List Lexeme) : Scan → Scan → Prop
  | found {stop stop' : Mark} {left left' : List Lexeme} (hstop : pairs.marks stop stop')
      (hleft : Lexeme.Paired pairs rest rest' left left') :
      Paired pairs rest rest' (.found stop left) (.found stop' left')
  | failed {left left' : List Lexeme} (hleft : Lexeme.Paired pairs rest rest' left left') :
      Paired pairs rest rest' (.failed left) (.failed left')
  | past {scan scan' : Scan} (hmore : ¬ (rest = [] ∧ rest' = [])) (hpast : scan.IsPast rest) :
      Paired pairs rest rest' scan scan'

variable {pairs : Pairing} {rest' : List Lexeme} {stop' : Mark}

theorem Scan.Paired.at_end {scan scan' : Scan} (hpast : scan.IsPast rest)
    (hnil : rest = [] → rest' = [] → Scan.Paired pairs rest rest' scan scan') :
    Scan.Paired pairs rest rest' scan scan' := by
  by_cases hmore : rest = [] ∧ rest' = []
  · exact hnil hmore.1 hmore.2
  · exact .past hmore hpast

theorem angles_paired (h : Paired pairs rest rest' lexemes lexemes') :
    Scan.Paired pairs rest rest' (angles depth lexemes) (angles depth lexemes') := by
  induction h generalizing depth with
  | done =>
    refine .at_end (fun _ left h => ?_) ?_
    · obtain ⟨taken, rfl, -⟩ := angles_eq_found h
      exact .inl (by simp)
    · rintro rfl rfl
      exact .failed .done
  | @cons a b as bs hfirst hmore ih =>
    unfold angles
    simp (disch := decide) only [(pairs.same hfirst).is]
    split
    · exact ih
    split
    · split
      · exact .found (pairs.stop hfirst) hmore
      · exact ih
    split
    · exact .failed hmore
    · exact ih

theorem arguments_paired (hstop : pairs.marks stop stop')
    (h : Paired pairs rest rest' lexemes lexemes') :
    Scan.Paired pairs rest rest' (arguments stop lexemes) (arguments stop' lexemes') := by
  cases h with
  | done =>
    refine .at_end (fun _ _ h => .inl (arguments_eq_found h).length_le) ?_
    rintro rfl rfl
    exact .found hstop .done
  | cons hfirst hmore =>
    unfold arguments
    simp (disch := decide) only [(pairs.same hfirst).is]
    split
    · exact angles_paired hmore
    · exact .found hstop (.cons hfirst hmore)

theorem name_of_not_colon {second : Lexeme} (hword : first.token.isWord)
    (hcolon : second.token.is ":" = false) :
    name (first :: second :: more) = arguments first.token.stop (second :: more) := by
  unfold name
  dsimp only
  rw [if_pos hword]
  cases more with
  | nil => rfl
  | cons third more => simp only [hcolon, Bool.false_and, Bool.false_eq_true, if_false]

/-- A colon with no word after it is left behind, and one with a word after it belongs to the name. -/
theorem name_of_colon {colon : Lexeme} (hword : first.token.isWord)
    (hcolon : colon.token.is ":") :
    name (first :: colon :: more) = match more with
      | second :: more =>
        if second.token.isWord then arguments second.token.stop more
        else .found first.token.stop (colon :: second :: more)
      | [] => .found first.token.stop [colon] := by
  have harguments (more : List Lexeme) :
      arguments first.token.stop (colon :: more) = .found first.token.stop (colon :: more) := by
    have htext : colon.token.text = ":" := of_decide_eq_true hcolon
    simp only [arguments, Token.is, htext]
    rfl
  unfold name
  dsimp only
  rw [if_pos hword]
  cases more with
  | nil => exact harguments []
  | cons second more => simp only [hcolon, Bool.true_and, harguments]

theorem name_paired (h : Paired pairs rest rest' lexemes lexemes') :
    Scan.Paired pairs rest rest' (name lexemes) (name lexemes') := by
  cases h with
  | done =>
    refine .at_end (fun _ _ h => .inl (name_eq_found h).length_lt.le) ?_
    rintro rfl rfl
    exact .failed .done
  | @cons first first' _ _ hfirst hmore =>
    by_cases hword : first.token.isWord
    · have hword' : first'.token.isWord := (pairs.same hfirst).isWord ▸ hword
      have hplain := arguments_paired (pairs.stop hfirst) hmore
      cases hmore with
      | done =>
        refine .at_end (fun _ _ h => .inl (Nat.lt_succ_iff.mp (name_eq_found h).length_lt)) ?_
        rintro rfl rfl
        unfold name
        dsimp only
        rwa [if_pos hword, if_pos hword']
      | @cons colon colon' more more' hcolon hmore =>
        have hsame : colon.token.is ":" = colon'.token.is ":" := (pairs.same hcolon).is (by decide)
        cases hat : colon.token.is ":" with
        | false =>
          rwa [name_of_not_colon hword hat, name_of_not_colon hword' (hsame.symm.trans hat)]
        | true =>
          rw [name_of_colon hword hat, name_of_colon hword' (hsame.symm.trans hat)]
          cases hmore with
          | done =>
            -- What follows the colon decides whether it belongs to the name.
            refine .at_end (fun _ left h => ?_) ?_
            · split at h
              · split at h
                · exact .inl ((arguments_eq_found h).length_le.trans (Nat.le_succ _))
                · cases h
                  exact .inr ⟨colon, hat, rfl⟩
              · cases h
                exact .inr ⟨colon, hat, rfl⟩
            · rintro rfl rfl
              exact .found (pairs.stop hfirst) (.cons hcolon .done)
          | cons hsecond hmore =>
            dsimp only
            rw [(pairs.same hsecond).isWord]
            split
            · exact arguments_paired (pairs.stop hsecond) hmore
            · exact .found (pairs.stop hfirst) (.cons hcolon (.cons hsecond hmore))
    · have hword' : ¬ first'.token.isWord := (pairs.same hfirst).isWord ▸ hword
      unfold name
      dsimp only
      rw [if_neg hword, if_neg hword']
      exact .failed (.cons hfirst hmore)

theorem arrayTail_paired (h : Paired pairs rest rest' lexemes lexemes') :
    Scan.Paired pairs rest rest' (arrayTail lexemes) (arrayTail lexemes') := by
  have hclose {close close' : Lexeme} {more more' : List Lexeme} (hfirst : pairs.lexemes close close')
      (hmore : Paired pairs rest rest' more more') : Scan.Paired pairs rest rest'
        (if close.token.is "]" then .found close.token.stop more else .failed (close :: more))
        (if close'.token.is "]" then .found close'.token.stop more'
          else .failed (close' :: more')) := by
    rw [(pairs.same hfirst).is (by decide)]
    split
    · exact .found (pairs.stop hfirst) hmore
    · exact .failed (.cons hfirst hmore)
  cases h with
  | done =>
    refine .at_end (fun _ _ h => .inl (arrayTail_eq_found h).length_lt.le) ?_
    rintro rfl rfl
    exact .failed .done
  | @cons size size' more more' hsize hmore =>
    have hsame : (size.token.isNumber || size.token.is "*") =
        (size'.token.isNumber || size'.token.is "*") := by
      rw [(pairs.same hsize).isNumber, (pairs.same hsize).is (by decide)]
    by_cases htest : (size'.token.isNumber || size'.token.is "*")
    · cases hmore with
      | done =>
        refine .at_end (fun _ _ h => .inl (Nat.lt_succ_iff.mp (arrayTail_eq_found h).length_lt)) ?_
        rintro rfl rfl
        simp only [arrayTail, hsame, if_pos htest]
        exact .failed .done
      | cons hnext hmore =>
        simp only [arrayTail, hsame, if_pos htest]
        exact hclose hnext hmore
    · simp only [arrayTail, hsame, if_neg htest]
      exact hclose hsize hmore

theorem suffixes_colon {bound : Nat} {colon : Lexeme} (hcolon : colon.token.is ":")
    (h : suffixes depth mark bound (colon :: lexemes) = .found stop rest) :
    rest = colon :: lexemes := by
  have htext : colon.token.text = ":" := of_decide_eq_true hcolon
  cases bound with
  | zero => cases h
  | succ bound =>
    unfold suffixes at h
    simp only [Token.is, htext] at h
    cases depth with
    | zero =>
      injection h with _ hrest
      exact hrest.symm
    | succ depth => cases h

/-- What may follow a part of a type, if that was found. -/
def Scan.suffixes (depth bound : Nat) : Scan → Scan
  | .failed rest => .failed rest
  | .found stop rest => TypeText.suffixes depth stop bound rest

theorem Scan.Paired.suffixes {scan scan' : Scan} {bound bound' : Nat}
    (h : Scan.Paired pairs rest rest' scan scan')
    (hmore : ∀ {stop stop' left left'}, pairs.marks stop stop' →
      Lexeme.Paired pairs rest rest' left left' → scan = .found stop left → scan' = .found stop' left' →
      Scan.Paired pairs rest rest' (TypeText.suffixes depth stop bound left)
        (TypeText.suffixes depth stop' bound' left')) :
    Scan.Paired pairs rest rest' (scan.suffixes depth bound) (scan'.suffixes depth bound') := by
  cases h with
  | found hstop hleft => exact hmore hstop hleft rfl rfl
  | failed hleft => exact .failed hleft
  | past hmore hpast =>
    refine .past hmore fun stop left h => ?_
    cases scan with
    | failed => cases h
    | found mark between =>
      rcases hpast mark between rfl with hlength | ⟨colon, hcolon, rfl⟩
      · exact .inl ((suffixes_eq_found h).length_le.trans hlength)
      · exact .inr ⟨colon, hcolon, suffixes_colon hcolon h⟩

theorem members_suffixes_paired (bound : Nat) :
    (∀ {depth bound' : Nat} {lexemes lexemes' : List Lexeme},
      Paired pairs rest rest' lexemes lexemes' → lexemes.length < bound → lexemes'.length < bound' →
      Scan.Paired pairs rest rest' (members depth bound lexemes) (members depth bound' lexemes')) ∧
    ∀ {depth bound' : Nat} {stop stop' : Mark} {lexemes lexemes' : List Lexeme},
      pairs.marks stop stop' → Paired pairs rest rest' lexemes lexemes' → lexemes.length < bound →
      lexemes'.length < bound' → Scan.Paired pairs rest rest' (suffixes depth stop bound lexemes)
        (suffixes depth stop' bound' lexemes') := by
  induction bound with
  | zero => exact ⟨fun _ h => absurd h (Nat.not_lt_zero _), fun _ _ h => absurd h (Nat.not_lt_zero _)⟩
  | succ bound ih =>
    obtain ⟨ihmembers, ihsuffixes⟩ := ih
    constructor
    · intro depth bound' lexemes lexemes' h hbound hbound'
      obtain ⟨bound', rfl⟩ : ∃ n, bound' = n + 1 := ⟨bound' - 1, by omega⟩
      cases h with
      | done =>
        refine .at_end (fun _ _ h => .inl (members_eq_found h).length_lt.le) ?_
        rintro rfl rfl
        exact .failed .done
      | cons hfirst hmore =>
        have hname := name_paired (.cons hfirst hmore)
        rw [length_cons] at hbound hbound'
        unfold members
        simp (disch := decide) only [(pairs.same hfirst).is]
        split
        · exact ihmembers hmore (by omega) (by omega)
        · refine hname.suffixes fun hstop hleft h h' => ?_
          have hlength := (name_eq_found h).length_lt
          have hlength' := (name_eq_found h').length_lt
          rw [length_cons] at hlength hlength'
          exact ihsuffixes hstop hleft (by omega) (by omega)
    · intro depth bound' stop stop' lexemes lexemes' hstop h hbound hbound'
      obtain ⟨bound', rfl⟩ : ∃ n, bound' = n + 1 := ⟨bound' - 1, by omega⟩
      cases h with
      | done =>
        refine .at_end (fun _ _ h => .inl (suffixes_eq_found h).length_le) ?_
        rintro rfl rfl
        unfold suffixes
        split
        · exact .found hstop .done
        · exact .failed .done
      | cons hfirst hmore =>
        have harray := arrayTail_paired hmore
        rw [length_cons] at hbound hbound'
        unfold suffixes
        simp (disch := decide) only [(pairs.same hfirst).is]
        split
        · exact ihsuffixes (pairs.stop hfirst) hmore (by omega) (by omega)
        split
        · refine harray.suffixes fun hstop hleft h h' => ?_
          have hlength := (arrayTail_eq_found h).length_lt
          have hlength' := (arrayTail_eq_found h').length_lt
          exact ihsuffixes hstop hleft (by omega) (by omega)
        split
        · exact ihmembers hmore (by omega) (by omega)
        split
        · exact .found hstop (.cons hfirst hmore)
        · split
          · exact ihsuffixes (pairs.stop hfirst) hmore (by omega) (by omega)
          · exact .failed (.cons hfirst hmore)

theorem scan_paired (h : Paired pairs rest rest' lexemes lexemes') :
    Scan.Paired pairs rest rest' (scan lexemes) (scan lexemes') :=
  (members_suffixes_paired _).1 h (Nat.lt_succ_self _) (Nat.lt_succ_self _)

/-- A type that ends before a token ends there, however its lexemes are laid out and whatever follows
the token. -/
theorem scan_alike {next next' : Lexeme} (hnext : next.token.Same next'.token)
    (rest' : List Lexeme) (hcolon : next.token.is ":" = false) (halike : Alike taken taken')
    (h : scan (taken ++ next :: rest) = .found stop (next :: rest)) :
    ∃ stop', scan (taken' ++ next' :: rest') = .found stop' (next' :: rest') := by
  let pairs : Pairing := ⟨fun a b => a.token.Same b.token, fun _ _ => True, id, fun _ => trivial⟩
  have hpaired : Paired pairs rest rest' (taken ++ next :: rest) (taken' ++ next' :: rest') := by
    clear h
    induction halike with
    | nil => exact .cons hnext .done
    | cons hfirst _ ih => exact .cons hfirst ih
  have hscan := scan_paired hpaired
  rw [h] at hscan
  generalize hfound : scan (taken' ++ next' :: rest') = found at hscan
  cases hscan with
  | @found _ stop' _ left' _ hleft =>
    cases hleft with
    | cons _ hmore =>
      obtain rfl := hmore.eq_of_length rfl
      obtain ⟨first, more, hsplit, -⟩ := scan_eq_found hfound
      rw [← cons_append] at hsplit
      exact ⟨stop', by rw [← (append_inj' hsplit rfl).2]⟩
  | past _ hpast =>
    rcases hpast _ _ rfl with hlength | ⟨colon, his, heq⟩
    · exact absurd hlength (Nat.not_succ_le_self _)
    · rw [← (List.cons.inj heq).1, hcolon] at his
      cases his

end TypeText

namespace ExprReader

open Lexeme

theorem passes_alike {stop : Text} (hstop : '\n' ∉ stop) (h : Alike lexemes lexemes') :
    passes stop depth (texts lexemes) = passes stop depth (texts lexemes') := by
  induction h generalizing depth with
  | nil => rfl
  | @cons a b lexemes lexemes' hfirst _ ih =>
    have htext (text : Text) (htext : '\n' ∉ text) :
        (a.token.text = text) = (b.token.text = text) :=
      propext (decide_eq_decide.mp (hfirst.is htext))
    have hopens : opens a.token.text = opens b.token.text := hfirst.opens
    have hcloses : closes a.token.text = closes b.token.text := hfirst.closes
    change passes stop depth (a.token.text :: texts lexemes) =
      passes stop depth (b.token.text :: texts lexemes')
    rw [passes.eq_def, passes.eq_def stop depth (b.token.text :: _)]
    simp only [htext stop hstop, htext ";" (by decide), hopens, hcloses, ih]

end ExprReader

namespace StatementReader

open Lexeme ExprReader TypeText

theorem isSemicolon_alike {a b : Lexeme} (h : a.token.Same b.token) :
    isSemicolon a = isSemicolon b := by
  unfold isSemicolon
  rw [h.cls, h.is (by decide)]

theorem isColon_of_isWord {token : Token} (h : token.Taken) (hword : token.isWord) :
    token.is ":" = false := by
  have hspelled := Token.isWord_text h hword
  refine decide_eq_false fun htext => ?_
  rw [htext] at hspelled
  cases hspelled

/-- A stretch without semicolons that starts a list of lexemes ends before the first semicolon. -/
theorem eq_append_of_open {found : List Lexeme} (hsemicolon : isSemicolon semicolon)
    (hopen : ∀ lexeme ∈ found, isSemicolon lexeme = false)
    (h : lexemes ++ semicolon :: rest = found ++ more) :
    ∃ left, lexemes = found ++ left ∧ more = left ++ semicolon :: rest := by
  rcases append_eq_append_iff.mp h with ⟨extra, rfl, hmore⟩ | ⟨left, hlexemes, hmore⟩
  · cases extra with
    | nil => exact ⟨[], by simp, hmore.symm⟩
    | cons lexeme extra =>
      obtain ⟨rfl, -⟩ := List.cons.inj hmore
      have hnot := hopen semicolon (mem_append_right _ mem_cons_self)
      exact absurd (hnot.symm.trans hsemicolon) (by decide)
  · exact ⟨left, hlexemes, hmore⟩

theorem declares_of_scan {name follow : Lexeme}
    (h : TypeText.scan lexemes = .found stop (name :: follow :: more))
    (hname : name.token.isWord)
    (hfollow : (follow.token.is "=" || follow.token.is ";")) : declares lexemes := by
  unfold declares
  rw [h]
  simp only [hname, hfollow, Bool.and_self]

/-- What starts no declaration starts none when its lexemes up to the semicolon are laid out anew and
others follow. -/
theorem declares_alike {semicolon' : Lexeme} {rest' : List Lexeme}
    (htaken : ∀ lexeme ∈ lexemes', lexeme.token.Taken) (halike : Alike lexemes lexemes')
    (hsame : semicolon.token.Same semicolon'.token) (hsemicolon : isSemicolon semicolon)
    (h : declares (lexemes ++ semicolon :: rest) = false) :
    declares (lexemes' ++ semicolon' :: rest') = false := by
  by_contra hdeclares
  have hdeclares := eq_true_of_ne_false hdeclares
  unfold declares at hdeclares
  split at hdeclares
  · next stop name follow more hscan =>
    rw [Bool.and_eq_true] at hdeclares
    obtain ⟨hword, hfollow⟩ := hdeclares
    obtain ⟨first, tail, hlexemes, -, htyped⟩ := scan_eq_found hscan
    have hopen' : ∀ lexeme ∈ first :: tail ++ [name], isSemicolon lexeme = false := by
      intro lexeme hmem
      rcases mem_append.mp hmem with hmem | hmem
      · exact isSemicolon_of_isTyped htyped lexeme hmem
      · rw [mem_singleton.mp hmem]
        exact isSemicolon_of_isWord hword
    have hsplit : lexemes' ++ semicolon' :: rest' = (first :: tail ++ [name]) ++ follow :: more := by
      rw [hlexemes]
      simp
    obtain ⟨left', rfl, hmore⟩ := eq_append_of_open
      ((isSemicolon_alike hsame).symm.trans hsemicolon) hopen' hsplit
    -- The same type and name stand among the lexemes that start no declaration.
    obtain ⟨found, left, rfl, hfound, hleft⟩ := halike.symm.split
    obtain ⟨typed, names, rfl, htyped, hnames⟩ := hfound.split
    cases hnames with
    | @cons _ word _ _ hname hnil =>
      cases hnil
      have hcolon := isColon_of_isWord (htaken name (by simp)) hword
      rw [append_assoc, append_assoc, hmore] at hscan
      obtain ⟨stop', hscan'⟩ := scan_alike hname (left ++ semicolon :: rest) hcolon htyped hscan
      rw [append_assoc, append_assoc] at h
      have hword' : word.token.isWord := hname.isWord.symm.trans hword
      have hfollows : ∃ follow' more', left ++ semicolon :: rest = follow' :: more' ∧
          follow.token.Same follow'.token := by
        cases hleft with
        | nil =>
          obtain ⟨rfl, -⟩ := List.cons.inj hmore
          exact ⟨semicolon, rest, rfl, hsame.symm⟩
        | @cons a b _ _ hfirst _ =>
          obtain ⟨rfl, -⟩ := List.cons.inj hmore
          exact ⟨b, _, rfl, hfirst⟩
      obtain ⟨follow', more', hrest, hfollow'⟩ := hfollows
      rw [hrest] at hscan' h
      rw [hfollow'.is (by decide), hfollow'.is (by decide)] at hfollow
      exact Bool.false_ne_true (h.symm.trans (declares_of_scan hscan' hword' hfollow))
  · cases hdeclares

/-- An expression up to its semicolon holds an equals sign outside all brackets, or holds none, however
it is laid out and whatever follows. -/
theorem targetStop?_alike {depth : Nat} {previous previous' : Option Mark}
    {taken taken' rest rest' : List Lexeme} {semicolon semicolon' : Lexeme}
    (halike : Alike taken taken') (hpasses : passes ";" depth (texts taken))
    (hprevious : previous.isSome = previous'.isSome) (hsemicolon : semicolon.token.is ";")
    (hsemicolon' : semicolon'.token.is ";") :
    (targetStop? depth previous (taken ++ semicolon :: rest)).isSome =
      (targetStop? depth previous' (taken' ++ semicolon' :: rest')).isSome := by
  have hstops {previous : Option Mark} {lexeme : Lexeme} {lexemes : List Lexeme}
      (h : lexeme.token.is ";") : targetStop? 0 previous (lexeme :: lexemes) = none := by
    have htext : lexeme.token.text = ";" := of_decide_eq_true h
    unfold targetStop?
    simp only [Token.opens, Token.closes, Token.is, htext]
    rfl
  induction halike generalizing depth previous previous' with
  | nil =>
    obtain rfl : depth = 0 := of_decide_eq_true hpasses
    rw [nil_append, nil_append, hstops hsemicolon, hstops hsemicolon']
  | @cons a b taken taken' hfirst _ ih =>
    rw [cons_append, cons_append]
    unfold targetStop?
    rw [← hfirst.opens, ← hfirst.closes, ← hfirst.is (by decide), ← hfirst.is (by decide)]
    rcases (passes_texts hpasses).2 with ⟨hopens, hmore⟩ |
      ⟨hopens, hcloses, inner, rfl, hmore⟩ | ⟨hopens, hcloses, hnot, hmore⟩
    · rw [if_pos hopens, if_pos hopens]
      exact ih hmore rfl
    · rw [if_neg hopens, if_neg hopens, if_pos hcloses, if_pos hcloses]
      exact ih hmore rfl
    · have hnot' : ¬ (depth = 0 ∧ a.token.is ";") := fun hboth => hnot hboth.2
      rw [if_neg hopens, if_neg hcloses, if_neg hnot']
      split
      · exact hprevious
      · exact ih hmore rfl

theorem targetStop?_cons (depth : Nat) (previous : Option Mark) (lexeme : Lexeme)
    (rest : List Lexeme) : targetStop? depth previous (lexeme :: rest) =
      if lexeme.token.opens then targetStop? (depth + 1) (some lexeme.token.stop) rest
      else if lexeme.token.closes then
        match depth with
        | 0 => none
        | depth + 1 => targetStop? depth (some lexeme.token.stop) rest
      else if depth = 0 ∧ lexeme.token.is ";" then none
      else if depth = 0 ∧ lexeme.token.is "=" then previous
      else targetStop? depth (some lexeme.token.stop) rest :=
  targetStop?.eq_def depth previous (lexeme :: rest)

/-- With `depth` brackets open before some lexemes, the number that is open after them, unless one is
closed that is not open or a semicolon stands outside all brackets. -/
def openAfter (depth : Nat) : List Lexeme → Option Nat
  | [] => some depth
  | ⟨_, token⟩ :: rest =>
    if token.opens then openAfter (depth + 1) rest
    else if token.closes then
      match depth with
      | 0 => none
      | depth + 1 => openAfter depth rest
    else if depth = 0 ∧ token.is ";" then none
    else openAfter depth rest

theorem openAfter_alike (h : Alike lexemes lexemes') :
    openAfter depth lexemes = openAfter depth lexemes' := by
  induction h generalizing depth with
  | nil => rfl
  | @cons a b lexemes lexemes' hfirst _ ih =>
    unfold openAfter
    rw [hfirst.opens, hfirst.closes, hfirst.is (by decide)]
    simp only [ih]

/-- The end of the last of some lexemes, or `previous` where there are none. -/
def lastStop (previous : Option Mark) (lexemes : List Lexeme) : Option Mark :=
  lexemes.foldl (fun _ lexeme => some lexeme.token.stop) previous

theorem lastStop_cons (previous : Option Mark) (first : Lexeme) (lexemes : List Lexeme) :
    lastStop previous (first :: lexemes) = some (Token.stopOf {} (flat (first :: lexemes))) := by
  have hlast (mark : Mark) : lastStop (some mark) lexemes = some (Token.stopOf mark (flat lexemes)) := by
    induction lexemes generalizing mark with
    | nil => rfl
    | cons lexeme lexemes ih =>
      rw [flat, Token.stopOf_append, Token.stopOf_cons]
      exact ih lexeme.token.stop
  rw [flat, Token.stopOf_append, Token.stopOf_cons]
  exact hlast first.token.stop

theorem targetStop?_append {previous : Option Mark}
    (hbefore : ∀ lexeme ∈ before, lexeme.token.is "=" = false) :
    targetStop? depth previous (before ++ rest) =
      (openAfter depth before).bind fun depth => targetStop? depth (lastStop previous before) rest := by
  induction before generalizing depth previous with
  | nil => rfl
  | cons lexeme before ih =>
    have hequals : lexeme.token.is "=" = false := hbefore lexeme mem_cons_self
    have hrest : ∀ other ∈ before, other.token.is "=" = false :=
      (forall_mem_cons.mp hbefore).2
    rw [cons_append, targetStop?_cons, hequals]
    unfold openAfter
    split
    · exact ih hrest
    split
    · cases depth with
      | zero => rfl
      | succ depth => exact ih hrest
    split
    · rfl
    · rw [if_neg (fun hboth => Bool.false_ne_true hboth.2)]
      exact ih hrest

theorem targetStop?_passes {depth inner : Nat} {previous : Option Mark} {taken rest : List Lexeme}
    (h : passes ";" inner (texts taken)) :
    targetStop? (depth + 1 + inner) previous (taken ++ rest) =
      targetStop? (depth + 1) (lastStop previous taken) rest := by
  induction taken generalizing inner previous with
  | nil =>
    obtain rfl : inner = 0 := of_decide_eq_true h
    rfl
  | cons lexeme taken ih =>
    have hstep {n : Nat} (hpasses : passes ";" n (texts taken)) :
        targetStop? (depth + 1 + n) (some lexeme.token.stop) (taken ++ rest) =
          targetStop? (depth + 1) (lastStop previous (lexeme :: taken)) rest :=
      ih hpasses
    rw [cons_append, targetStop?_cons]
    rcases (passes_texts h).2 with ⟨hopens, hmore⟩ | ⟨hopens, hcloses, inner, rfl, hmore⟩ |
      ⟨hopens, hcloses, -, hmore⟩
    · rw [if_pos hopens]
      exact hstep hmore
    · rw [if_neg hopens, if_pos hcloses]
      exact hstep hmore
    · rw [if_neg hopens, if_neg hcloses, if_neg (by omega), if_neg (by omega)]
      exact hstep hmore

/-- Lexemes with no equals sign outside brackets are passed on the way to the end of a target. -/
theorem targetStop?_skips {previous : Option Mark} (h : passes "=" depth (texts lexemes)) :
    targetStop? depth previous (lexemes ++ rest) =
      targetStop? 0 (lastStop previous lexemes) rest := by
  induction lexemes generalizing depth previous with
  | nil =>
    obtain rfl : depth = 0 := of_decide_eq_true h
    rfl
  | cons lexeme lexemes ih =>
    obtain ⟨hequals, hcases⟩ := passes_texts h
    rw [cons_append, targetStop?_cons]
    rcases hcases with ⟨hopens, hmore⟩ | ⟨hopens, hcloses, inner, rfl, hmore⟩ |
      ⟨hopens, hcloses, hsemicolon, hmore⟩
    · rw [if_pos hopens]
      exact ih hmore
    · rw [if_neg hopens, if_pos hcloses]
      exact ih hmore
    · rw [if_neg hopens, if_neg hcloses, if_neg fun hboth => hsemicolon hboth.2, if_neg hequals]
      exact ih hmore

theorem targetStop?_eq_some (h : targetStop? depth (some mark) lexemes = some stop) :
    ∃ taken left, lexemes = taken ++ left ∧ stop = Token.stopOf mark (flat taken) := by
  induction lexemes generalizing depth mark with
  | nil => cases h
  | cons lexeme lexemes ih =>
    have hstep {depth : Nat}
        (h : targetStop? depth (some lexeme.token.stop) lexemes = some stop) :
        ∃ taken left, lexeme :: lexemes = taken ++ left ∧
          stop = Token.stopOf mark (flat taken) := by
      obtain ⟨taken, left, rfl, rfl⟩ := ih h
      refine ⟨lexeme :: taken, left, rfl, ?_⟩
      rw [flat, Token.stopOf_append, Token.stopOf_cons]
    unfold targetStop? at h
    split at h
    · exact hstep h
    split at h
    · cases depth with
      | zero => cases h
      | succ depth => exact hstep h
    split at h
    · cases h
    split at h
    · cases h
      exact ⟨[], lexeme :: lexemes, rfl, rfl⟩
    · exact hstep h

/-- The target of an assignment ends before its equals sign, or past the semicolon that the assignment
ends with. -/
theorem target_cases {equals : Lexeme}
    (hbefore : ∀ lexeme ∈ first :: before, lexeme.token.is "=" = false)
    (hequals : equals.token.is "=") (hpasses : passes ";" 0 (texts taken))
    (hsemicolon : semicolon.token.is ";")
    (h : targetStop? 0 none (first :: before ++ equals :: (taken ++ semicolon :: rest)) =
      some stop) :
    (openAfter 0 (first :: before) = some 0 ∧ stop = Token.stopOf {} (flat (first :: before))) ∨
      ∃ more left, rest = more ++ left ∧ stop = Token.stopOf {}
        (flat (first :: before ++ equals :: (taken ++ semicolon :: more))) := by
  have hequals' : equals.token.text = "=" := of_decide_eq_true hequals
  have hsemicolon' : semicolon.token.text = ";" := of_decide_eq_true hsemicolon
  rw [targetStop?_append hbefore, lastStop_cons] at h
  obtain ⟨depth, hdepth, h⟩ := Option.bind_eq_some_iff.mp h
  cases depth with
  | zero =>
    refine .inl ⟨hdepth, ?_⟩
    rw [targetStop?_cons] at h
    simp only [Token.opens, Token.closes, Token.is, hequals'] at h
    exact (Option.some.inj h).symm
  | succ depth =>
    right
    rw [targetStop?_cons] at h
    simp only [Token.opens, Token.closes, Token.is, hequals'] at h
    have hsplit := @targetStop?_passes depth 0 (some equals.token.stop) taken (semicolon :: rest)
      hpasses
    rw [hsplit, targetStop?_cons] at h
    simp only [Token.opens, Token.closes, Token.is, hsemicolon'] at h
    obtain ⟨more, left, rfl, rfl⟩ := targetStop?_eq_some h
    refine ⟨more, left, rfl, ?_⟩
    simp only [flat_append, flat, Token.stopOf_append, Token.stopOf_cons]

/-- A target that ends before the first equals sign does so wherever it is spelled the same. -/
theorem targetStop?_of_openAfter {equals : Lexeme}
    (hbefore : ∀ lexeme ∈ first :: before, lexeme.token.is "=" = false)
    (hequals : equals.token.is "=") (hopen : openAfter 0 (first :: before) = some 0) :
    targetStop? 0 none (first :: before ++ equals :: rest) =
      some (Token.stopOf {} (flat (first :: before))) := by
  have hequals' : equals.token.text = "=" := of_decide_eq_true hequals
  rw [targetStop?_append hbefore, lastStop_cons, hopen, Option.bind_some, targetStop?_cons]
  simp only [Token.opens, Token.closes, Token.is, hequals']
  rfl

end StatementReader

end Flowchart
