import Flowchart.Proofs.Completeness
import Flowchart.Proofs.Likeness
import Flowchart.Proofs.Lossless
import Flowchart.Proofs.Strict

/-!
Strict readers give the answers of the readers they follow. Where the tokens that are left stand in
the text in their order, after the last one that was read, no type and no expression makes a strict
reader stop, and the cursor after it stands again before tokens in their order.
-/
namespace Flowchart.Strict

open List hiding count

open Lexeme Token Reader Source
open Flowchart.StatementReader (Steps)

variable {α β : Type} {src : Source} {c c' c'' : Cursor} {x : Checked α} {y : Reader α} {passed :
  List Token} {stop : Mark} {bound : Nat} (lexemes : List Lexeme)

theorem part?_of_le {list : List α} {start stop : Nat} (h : start ≤ stop)
    (hstop : stop ≤ list.length) : part? list start stop = some ((list.take stop).drop start) :=
  if_pos ⟨h, hstop⟩

theorem slice?_of_le {start : Mark} (h : start.index ≤ stop.index) (hstop : src.Marks stop) :
    slice? src start stop = some (src.slice start stop) := by
  obtain ⟨before, after, htext, rfl⟩ := hstop
  have hrange : (({} : Mark).after before).index ≤ src.text.length := by
    change 0 + before.length ≤ src.text.length
    rw [htext, length_append]
    omega
  unfold slice?
  rw [part?_of_le h hrange, drop_take]
  rfl

theorem extent?_of_le {start : Mark} (h : start.index ≤ stop.index) (hstop : src.Marks stop) :
    extent? src start stop = some (src.extent start stop) := by
  unfold extent?
  rw [slice?_of_le h hstop]
  rfl

/-- The tokens that are left stand in the text in their order, after the last one that was read. -/
structure Ready (src : Source) (c : Cursor) : Prop where
  ordered : src.Ordered (flat c.rest)
  marks : src.Marks c.last
  after : ∀ token ∈ flat c.rest, c.last.index ≤ token.start.index

/-- A cursor with no more tokens left than another one. -/
structure Later (src : Source) (c c' : Cursor) : Prop where
  ready : Ready src c'
  last : c.last.index ≤ c'.last.index
  count : count c'.rest ≤ count c.rest
  length : c'.rest.length ≤ c.rest.length

/-- A cursor that is past the next token of another one. -/
structure Past (src : Source) (c c' : Cursor) : Prop extends Later src c c' where
  fewer : Lexeme.count c'.rest < Lexeme.count c.rest
  shorter : c'.rest.length < c.rest.length
  first : ∀ token, c.peek? = some token → token.start.index ≤ c'.last.index

theorem Later.refl (h : Ready src c) : Later src c c := ⟨h, le_rfl, le_rfl, le_rfl⟩

theorem Later.trans (h : Later src c c') (h' : Later src c' c'') : Later src c c'' :=
  ⟨h'.ready, h.last.trans h'.last, h'.count.trans h.count, h'.length.trans h.length⟩

theorem Past.trans (h : Past src c c') (h' : Later src c' c'') : Past src c c'' where
  toLater := h.toLater.trans h'
  fewer := h'.count.trans_lt h.fewer
  shorter := h'.length.trans_lt h.shorter
  first token hpeek := (h.first token hpeek).trans h'.last

theorem count_eq : Lexeme.count lexemes = (flat lexemes).length := by
  induction lexemes with
  | nil => rfl
  | cons lexeme lexemes ih =>
    rw [Lexeme.count, flat, length_append, length_cons]
    omega

/-- A cursor stays ready when it passes some tokens. -/
theorem Ready.passes (h : Ready src c) (hsteps : Steps c passed c') :
    Ready src c' ∧ c.last.index ≤ c'.last.index ∧
      ∀ token ∈ passed, token.start.index ≤ c'.last.index := by
  obtain ⟨hordered, hmarks, hafter⟩ := h
  obtain ⟨hrest, hlast, -⟩ := hsteps
  rw [hrest] at hordered hafter
  have hleft : src.Ordered (flat c'.rest) := hordered.sublist (sublist_append_right _ _)
  rcases eq_nil_or_concat passed with rfl | ⟨front, last, hpassed⟩
  · refine ⟨⟨hleft, hlast ▸ hmarks, hlast ▸ hafter⟩, hlast ▸ le_rfl, ?_⟩
    exact nofun
  · rw [concat_eq_append] at hpassed
    subst hpassed
    rw [stopOf_append, stopOf_cons, stopOf_nil] at hlast
    have hend : last ∈ front ++ [last] := mem_append_right _ (mem_singleton_self last)
    obtain ⟨-, hstop, hlt⟩ := hordered.placed last (mem_append_left _ hend)
    obtain ⟨-, -, hbetween⟩ := pairwise_append.mp hordered.sorted
    have hfirst := hafter last (mem_append_left _ hend)
    rw [hlast]
    refine ⟨⟨hleft, hlast ▸ hstop, fun token hmem => hlast ▸ hbetween last hend token hmem⟩,
      by omega, fun token hmem => ?_⟩
    rcases mem_append.mp hmem with hfront | hsame
    · have hpassed := hordered.sublist (sublist_append_left _ (flat c'.rest))
      have hbefore := (pairwise_append.mp hpassed.sorted).2.2 token hfront last
        (mem_singleton_self last)
      have hsize := (hpassed.placed token hmem).2.2
      omega
    · rw [mem_singleton.mp hsame]
      omega

theorem Ready.later (h : Ready src c) (hsteps : Steps c passed c')
    (hlength : c'.rest.length ≤ c.rest.length) : Later src c c' := by
  obtain ⟨hready, hlast, -⟩ := h.passes hsteps
  refine ⟨hready, hlast, ?_, hlength⟩
  rw [count_eq, count_eq, hsteps.rest, length_append]
  omega

/-- A cursor that passes the next token of another one is past it. -/
theorem Ready.past {first : Token} (h : Ready src c) (hsteps : Steps c passed c')
    (hlength : c'.rest.length < c.rest.length) (hpeek : c.peek? = some first)
    (hfirst : first ∈ passed) : Past src c c' := by
  refine ⟨h.later hsteps hlength.le, ?_, hlength, fun token htoken => ?_⟩
  · have hpos := length_pos_of_mem hfirst
    rw [count_eq, count_eq, hsteps.rest, length_append]
    omega
  · obtain rfl := Option.some.inj (hpeek.symm.trans htoken)
    exact (h.passes hsteps).2.2 first hfirst

theorem Ready.takes {taken : List Lexeme} (h : Ready src c) (htakes : c.Takes taken c') :
    Later src c c' := by
  refine h.later (.of_takes htakes) ?_
  rw [htakes.rest, length_append]
  omega

theorem Ready.takesPast {lexeme : Lexeme} {taken : List Lexeme} (h : Ready src c)
    (htakes : c.Takes (lexeme :: taken) c') : Past src c c' := by
  refine h.past (.of_takes htakes) ?_ (Cursor.peek?_of_takes htakes)
    (mem_append_right _ mem_cons_self)
  rw [htakes.rest, length_append, length_cons]
  omega

/-- The piece of the text from the next token to a later one is in range. -/
theorem Ready.reaches {first : Lexeme} {more left : List Lexeme} (h : Ready src c)
    (hrest : c.rest = first :: (more ++ left)) (hstop : stop = stopOf first.token.stop (flat more)) :
    Past src c { c with rest := left, last := stop } ∧
      first.token.start.index ≤ stop.index ∧ src.Marks stop := by
  have htakes : c.Takes (first :: more) { c with rest := left, last := stop } := by
    refine ⟨hrest, ?_, rfl⟩
    rw [flat, stopOf_append, stopOf_cons]
    exact hstop
  have hpast := h.takesPast htakes
  exact ⟨hpast, hpast.first first.token (Cursor.peek?_of_takes htakes), hpast.ready.marks⟩

/-- From a cursor the strict reader gives the answer of the reader. If it is a value, it comes with
a later cursor for which `p` holds. -/
structure SafeAt (src : Source) (c : Cursor) (p : α → Cursor → Prop) (x : Checked α)
    (y : Reader α) : Prop where
  same : x c = some (y c)
  later : ∀ a c', y c = .ok a c' → Later src c c' ∧ p a c'

variable {p : α → Cursor → Prop} {q : β → Cursor → Prop}

theorem SafeAt.bind {f : α → Checked β} {g : α → Reader β} (hx : SafeAt src c p x y)
    (hf : ∀ a c', Later src c c' → p a c' → SafeAt src c' q (f a) (g a)) :
    SafeAt src c q (x >>= f) (y >>= g) := by
  have hsame := hx.same
  have hlater := hx.later
  constructor
  · change Checked.bind x f c = some (EStateM.bind y g c)
    unfold Checked.bind EStateM.bind
    rw [hsame]
    cases hy : y c with
    | error error cursor => rfl
    | ok a cursor =>
      obtain ⟨hnext, ha⟩ := hlater a cursor hy
      exact (hf a cursor hnext ha).same
  · intro b c'' h
    obtain ⟨a, c', hy, hg⟩ := Reader.bind_eq_ok h
    obtain ⟨hnext, ha⟩ := hlater a c' hy
    obtain ⟨hlast, hb⟩ := (hf a c' hnext ha).later b c'' hg
    exact ⟨hnext.trans hlast, hb⟩

theorem SafeAt.mono {p' : α → Cursor → Prop} (h : SafeAt src c p x y)
    (hp : ∀ a c', Later src c c' → p a c' → p' a c') :
    SafeAt src c p' x y :=
  ⟨h.same, fun a c' hy =>
    have hlater := h.later a c' hy
    ⟨hlater.1, hp a c' hlater.1 hlater.2⟩⟩

theorem SafeAt.congr {x' : Checked α} (h : SafeAt src c p x' y) (hx : x c = x' c) :
    SafeAt src c p x y :=
  ⟨hx.trans h.same, h.later⟩

theorem SafeAt.ite {test : Prop} [Decidable test] {x' : Checked α} {y' : Reader α}
    (h : test → SafeAt src c p x y) (h' : ¬test → SafeAt src c p x' y') :
    SafeAt src c p (if test then x else x') (if test then y else y') := by
  by_cases htest : test
  · rw [if_pos htest, if_pos htest]
    exact h htest
  · rw [if_neg htest, if_neg htest]
    exact h' htest

/-- What the reader does is known. -/
theorem SafeAt.post {p' : α → Cursor → Prop} (h : SafeAt src c p x y)
    (hp : ∀ a c', y c = .ok a c' → p' a c') : SafeAt src c p' x y :=
  ⟨h.same, fun a c' hy => ⟨(h.later a c' hy).1, hp a c' hy⟩⟩

/-- A reader that starts past a token ends past it. -/
theorem SafeAt.after {x : Checked α} {y : Reader α} (h : SafeAt src c' (fun _ _ => True) x y)
    (hpast : Past src c c') : SafeAt src c' (fun _ c'' => Past src c c'') x y :=
  h.mono fun _ _ hlater _ => hpast.trans hlater

theorem safe_pure {a : α} (hc : Ready src c) (ha : p a c) : SafeAt src c p (pure a) (pure a) := by
  refine ⟨rfl, fun b c' h => ?_⟩
  cases h
  exact ⟨.refl hc, ha⟩

theorem SafeAt.view {f : Cursor → Checked α} {g : Cursor → Reader α}
    (h : SafeAt src c p (f c) (g c)) : SafeAt src c p (lift get >>= f) (get >>= g) :=
  ⟨h.same, h.later⟩

/-- A reader whose value is the last thing that is read. -/
theorem SafeAt.ends (h : SafeAt src c p x y) (f : α → β) :
    SafeAt src c (fun _ _ => True) (x >>= fun a => pure (f a)) (y >>= fun a => pure (f a)) :=
  h.bind fun _ _ hlater _ => safe_pure hlater.ready trivial

theorem SafeAt.map (f : α → β) (h : SafeAt src c p x y) :
    SafeAt src c (fun _ _ => True) (f <$> x) (f <$> y) := by
  exact h.ends f

/-- A reader that goes on only where fewer tokens are left goes on past a token. -/
theorem SafeAt.again (hpast : Past src c c') (hbound : c.rest.length < bound + 1)
    (h : Ready src c' → c'.rest.length < bound → SafeAt src c' p x y) :
    SafeAt src c' p
      (fun next => if Lexeme.count next.rest < Lexeme.count c.rest then x next else none) y := by
  have hshorter := hpast.shorter
  exact (h hpast.ready (by omega)).congr (if_pos hpast.fewer)

/-- The reader looks at its cursor where the strict one does not. -/
theorem SafeAt.look {g : Cursor → Reader α} (h : SafeAt src c p x (g c)) :
    SafeAt src c p x (get >>= g) :=
  ⟨h.same, h.later⟩

theorem safe_set {next : Cursor} (hnext : Later src c next) :
    SafeAt src c (fun _ c' => c' = next) (lift (set next)) (set next) := by
  refine ⟨rfl, fun _ c' h => ?_⟩
  cases h
  exact ⟨hnext, rfl⟩

theorem safe_failAt (token : Token) (fault : SyntaxFault) :
    SafeAt src c p (lift (failAt token fault)) (failAt token fault) :=
  ⟨rfl, fun _ _ h => nomatch h⟩

theorem safe_failAtEnd (fault : SyntaxFault) :
    SafeAt src c p (lift (failAtEnd src fault)) (failAtEnd src fault) :=
  ⟨rfl, fun _ _ h => nomatch h⟩

theorem SafeAt.demand {value : Option β} {b : β} {f : β → Checked α} (hvalue : value = some b)
    (h : SafeAt src c p (f b) y) :
    SafeAt src c p (Strict.demand value >>= f) y := by
  subst hvalue
  exact h

/-- The token is the next one, and the cursor stands right after it. -/
structure Read (src : Source) (c : Cursor) (token : Token) (c' : Cursor) : Prop
    extends Past src c c' where
  peek : c.peek? = some token
  stop : c'.last = token.stop

theorem Ready.read {comments : List Token} {token : Token} (h : Ready src c)
    (htakes : c.Takes [⟨comments, token⟩] c') : Read src c token c' where
  toPast := h.takesPast htakes
  peek := Cursor.peek?_of_takes htakes
  stop := by rw [htakes.last, flat, stopOf_append]; rfl

theorem safe_expect (hc : Ready src c) (text : Text) :
    SafeAt src c (Read src c) (lift (expect src text)) (expect src text) := by
  refine ⟨rfl, fun token c' h => ?_⟩
  obtain ⟨-, comments, htakes⟩ := expect_eq_ok h
  exact ⟨hc.takes htakes, hc.read htakes⟩

theorem safe_expectWord (hc : Ready src c) :
    SafeAt src c (Read src c) (lift (expectWord src)) (expectWord src) := by
  refine ⟨rfl, fun token c' h => ?_⟩
  obtain ⟨-, comments, htakes⟩ := expectWord_eq_ok h
  exact ⟨hc.takes htakes, hc.read htakes⟩

theorem safe_eat (hc : Ready src c) (text : Text) :
    SafeAt src c (fun found c' => if found then Past src c c' else c' = c) (lift (eat text))
      (eat text) := by
  refine ⟨rfl, fun found c' h => ?_⟩
  rcases eat_eq_ok h with ⟨rfl, comments, token, -, htakes⟩ | ⟨rfl, rfl, -⟩
  · exact ⟨hc.takes htakes, hc.takesPast htakes⟩
  · exact ⟨.refl hc, rfl⟩

theorem safe_advance (hc : Ready src c) :
    SafeAt src c (fun _ c' => ∀ token, c.peek? = some token → Past src c c') (lift advance)
      advance := by
  refine ⟨rfl, fun _ c' h => ?_⟩
  cases h
  cases hpeek : c.peek? with
  | none =>
    refine ⟨?_, fun _ h => nomatch h⟩
    unfold Cursor.next
    cases hrest : c.rest with
    | nil => exact .refl hc
    | cons =>
      rw [Cursor.peek?, hrest] at hpeek
      cases hpeek
  | some token =>
    obtain ⟨comments, hrest⟩ := Cursor.rest_of_peek? hpeek
    have htakes := Cursor.takes_next hrest
    exact ⟨hc.takes htakes, fun _ _ => hc.takesPast htakes⟩

/-- Scanning takes some of the text with every token. -/
theorem scanFrom_eq {mark : Mark} {text : Text} (h : text.length ≤ bound) :
    scanFrom mark text = some (Token.scanFrom bound mark text) := by
  induction bound generalizing mark text with
  | zero =>
    obtain rfl := eq_nil_of_length_eq_zero (Nat.le_zero.mp h)
    unfold scanFrom
    rfl
  | succ bound ih =>
    cases text with
    | nil =>
      unfold scanFrom
      rfl
    | cons c rest =>
      rw [length_cons] at h
      unfold scanFrom Token.scanFrom
      split
      · exact ih (by omega)
      · cases htake : take? c rest with
        | none => rfl
        | some found =>
          obtain ⟨cls, text, left⟩ := found
          obtain ⟨body, rfl, rfl⟩ := take?_split htake
          rw [length_append] at h ⊢
          dsimp only
          have hpiece : left.length < body.length + left.length + 1 ∧
              c :: body ++ left = c :: (body ++ left) := ⟨by omega, rfl⟩
          rw [if_pos hpiece, ih (by omega)]
          cases Token.scanFrom bound (mark.after (c :: body)) left with
          | error => rfl
          | ok => rfl

namespace TypeText

open Flowchart.TypeText (Scan)

theorem angles_eq (depth : Nat) (lexemes : List Lexeme) :
    angles (depth + 1) lexemes = some (Flowchart.TypeText.angles depth lexemes) := by
  induction lexemes generalizing depth with
  | nil => rfl
  | cons lexeme rest ih =>
    unfold angles Flowchart.TypeText.angles
    split
    · exact ih (depth + 1)
    split
    · cases depth with
      | zero => rfl
      | succ depth => exact ih depth
    split
    · rfl
    · exact ih depth

theorem arguments_eq (stop : Mark) (lexemes : List Lexeme) :
    arguments stop lexemes = some (Flowchart.TypeText.arguments stop lexemes) := by
  cases lexemes with
  | nil => rfl
  | cons lexeme rest =>
    by_cases hopens : lexeme.token.is "<"
    · have hfirst : angles 0 (lexeme :: rest) = angles 1 rest := if_pos hopens
      rw [arguments, if_pos hopens, hfirst, Flowchart.TypeText.arguments, if_pos hopens]
      exact angles_eq 0 rest
    · rw [arguments, if_neg hopens, Flowchart.TypeText.arguments, if_neg hopens]

theorem name_eq : name lexemes = some (Flowchart.TypeText.name lexemes) := by
  rcases lexemes with - | ⟨first, rest⟩
  · rfl
  unfold name Flowchart.TypeText.name
  rcases rest with - | ⟨colon, - | ⟨second, more⟩⟩ <;> simp only [arguments_eq] <;> grind

theorem members_suffixes_eq (bound : Nat) :
    (∀ {depth : Nat} {lexemes : List Lexeme}, lexemes.length < bound →
      members depth lexemes = some (Flowchart.TypeText.members depth bound lexemes)) ∧
    ∀ {depth : Nat} {stop : Mark} {lexemes : List Lexeme}, lexemes.length < bound →
      suffixes depth stop lexemes =
        some (Flowchart.TypeText.suffixes depth stop bound lexemes) := by
  induction bound with
  | zero => exact ⟨fun h => absurd h (Nat.not_lt_zero _), fun h => absurd h (Nat.not_lt_zero _)⟩
  | succ bound ih =>
    obtain ⟨ihmembers, ihsuffixes⟩ := ih
    constructor
    · intro depth lexemes hbound
      cases lexemes with
      | nil =>
        rw [members]
        rfl
      | cons lexeme rest =>
        rw [length_cons] at hbound
        rw [members, Flowchart.TypeText.members]
        split
        · exact ihmembers (by omega)
        · rw [name_eq]
          cases hname : Flowchart.TypeText.name (lexeme :: rest) with
          | failed left => rfl
          | found stop left =>
            have hshort := (Flowchart.TypeText.name_eq_found hname).length_lt
            rw [length_cons] at hshort
            change (if left.length < rest.length + 1 then suffixes depth stop left else none) = _
            rw [if_pos hshort]
            exact ihsuffixes (by omega)
    · intro depth stop lexemes hbound
      cases lexemes with
      | nil =>
        rw [suffixes]
        rfl
      | cons lexeme rest =>
        rw [length_cons] at hbound
        unfold suffixes Flowchart.TypeText.suffixes
        split
        · exact ihsuffixes (by omega)
        split
        · cases harray : Flowchart.TypeText.arrayTail rest with
          | failed left => rfl
          | found stop left =>
            have hshort := (Flowchart.TypeText.arrayTail_eq_found harray).length_lt
            dsimp only
            rw [if_pos (by omega)]
            exact ihsuffixes (by omega)
        split
        · exact ihmembers (by omega)
        cases depth with
        | zero => rfl
        | succ depth =>
          rw [if_neg (Nat.succ_ne_zero depth)]
          split
          · exact ihsuffixes (by omega)
          · rfl

theorem members_eq : members 0 lexemes = some (Flowchart.TypeText.scan lexemes) :=
  (members_suffixes_eq _).1 (Nat.lt_succ_self _)

theorem safe_read (hc : Ready src c) :
    SafeAt src c (fun _ c' => Past src c c') (read src) (Flowchart.TypeText.read src) := by
  constructor
  · unfold read Flowchart.TypeText.read
    rw [members_eq]
    cases hrest : c.rest with
    | nil => rfl
    | cons first rest =>
      cases hscan : Flowchart.TypeText.scan (first :: rest) with
      | failed left => cases left <;> rfl
      | found stop left =>
        obtain ⟨first', more, hlexemes, hstop, -⟩ := Flowchart.TypeText.scan_eq_found hscan
        obtain ⟨rfl, -⟩ := List.cons.inj hlexemes
        obtain ⟨-, hle, hmarks⟩ := hc.reaches (hrest.trans hlexemes) hstop
        change (slice? src first.token.start stop >>= _) = _
        rw [slice?_of_le hle hmarks]
        rfl
  · intro typeName c' h
    obtain ⟨taken, htakes, hnames⟩ := Flowchart.TypeText.read_eq_ok h
    obtain ⟨first, more, rfl, -⟩ := hnames.text
    exact ⟨hc.takes htakes, hc.takesPast htakes⟩

end TypeText

namespace ExprReader

open Flowchart.ExprReader (matchBack callParts? splitCommas argumentGroups callee? argument_within)

theorem extentOf_eq {tokens : List Token} (h : src.Ordered tokens) (hne : tokens ≠ []) :
    extentOf src tokens = some (Flowchart.ExprReader.extentOf src tokens) := by
  unfold extentOf Flowchart.ExprReader.extentOf
  obtain ⟨first, rest, rfl⟩ := exists_cons_of_ne_nil hne
  obtain ⟨last, hlast⟩ := Option.isSome_iff_exists.mp (getLast?_isSome.mpr hne)
  rw [hlast]
  have hmem := mem_of_getLast? hlast
  have hstart := (h.ends rfl hlast last hmem).1
  obtain ⟨-, hmarks, hlt⟩ := h.placed last hmem
  exact extent?_of_le (by omega) hmarks

theorem openParen_eq (depth : Nat) (inner tokens : List Token) :
    openParen (depth + 1) tokens = some ((matchBack depth inner tokens).bind fun parts =>
      if parts.1.isEmpty then none else some parts.1.length) := by
  induction tokens generalizing depth inner with
  | nil => rfl
  | cons token before ih =>
    unfold openParen matchBack
    split
    · exact ih (depth + 1) _
    split
    · cases depth with
      | zero => rfl
      | succ depth => exact ih depth _
    · exact ih depth _

theorem part?_middle (before part after : List α) :
    part? (before ++ (part ++ after)) before.length (before.length + part.length) = some part := by
  rw [part?_of_le (by omega) (by simp only [length_append]; omega), ← append_assoc,
    ← length_append, take_left, drop_left]

theorem callParts_eq (tokens : List Token) : callParts tokens = some (callParts? tokens) := by
  rcases eq_nil_or_concat tokens with rfl | ⟨before, last, hlast⟩
  · rfl
  rw [concat_eq_append] at hlast
  subst hlast
  unfold callParts callParts?
  rw [getLast?_concat, reverse_concat]
  by_cases hcloses : last.is ")"
  · have hopen : openParen 0 (last :: before.reverse) = openParen 1 before.reverse := if_pos hcloses
    dsimp only
    rw [if_pos hcloses, if_pos hcloses, hopen, openParen_eq 0 []]
    cases hmatch : matchBack 0 [] before.reverse with
    | none => rfl
    | some parts =>
      obtain ⟨head, inner⟩ := parts
      obtain ⟨opening, between, hbefore, -, rfl⟩ := Flowchart.ExprReader.matchBack_eq_some hmatch
      cases head with
      | nil => rfl
      | cons token head =>
        have htokens : before = (token :: head).reverse ++ opening :: between.reverse := by
          rw [← reverse_reverse before, hbefore]
          simp
        have hhead : part? (before ++ [last]) 0 (token :: head).length =
            some (token :: head).reverse := by
          have hmiddle := part?_middle [] (token :: head).reverse
            (opening :: between.reverse ++ [last])
          simpa [htokens] using hmiddle
        have hinner : part? (before ++ [last]) ((token :: head).length + 1) before.length =
            some (between.reverse ++ []) := by
          have hmiddle := part?_middle ((token :: head).reverse ++ [opening]) between.reverse [last]
          rw [htokens]
          simpa [Nat.add_comm, Nat.add_left_comm] using hmiddle
        have hstop : decrement? (before ++ [last]).length = some before.length := by
          rw [length_append]
          rfl
        change ((part? (before ++ [last]) 0 (token :: head).length).bind fun head =>
          (decrement? (before ++ [last]).length).bind fun stop =>
            (part? (before ++ [last]) (_ + 1) stop).bind fun inner => some (some (head, inner))) = _
        rw [hhead, hstop, Option.bind_some, Option.bind_some, hinner]
        rfl
  · dsimp only
    rw [if_neg hcloses, if_neg hcloses]

/-- The arguments among the tokens that are left, the first of them continued by what was passed
since the last comma. -/
theorem arguments_eq {tokens before current rest group : List Token} {more : List (List Token)}
    {depth : Nat} (htokens : tokens = before ++ (current ++ rest))
    (hsplit : splitCommas depth rest = group :: more) :
    arguments tokens depth before.length (before.length + current.length) rest =
      some (((current ++ group) :: more).filter fun group => !group.isEmpty) := by
  induction rest generalizing before current group more depth with
  | nil =>
    cases hsplit
    subst htokens
    have hpart := part?_middle before current []
    unfold arguments
    rw [append_nil] at hpart ⊢
    rw [length_append, hpart]
    cases current with
    | nil => rw [if_neg (by simp)]; rfl
    | cons => rw [if_pos (by simp)]; rfl
  | cons token rest ih =>
    have hnext : tokens = before ++ ((current ++ [token]) ++ rest) := by
      rw [htokens, append_assoc current]
      rfl
    unfold splitCommas at hsplit
    unfold arguments
    split
    · next hcomma =>
      rw [if_pos hcomma] at hsplit
      obtain ⟨rfl, rfl⟩ := List.cons.inj hsplit
      obtain ⟨group, more, hmore, -⟩ := Flowchart.ExprReader.splitCommas_eq_cons depth rest
      have hafter : tokens = (before ++ (current ++ [token])) ++ ([] ++ rest) := by
        rw [hnext, append_assoc before]
        rfl
      have hih := ih hafter hmore
      simp only [length_append, length_cons, length_nil,
        ← Nat.add_assoc] at hih
      rw [hih, htokens, part?_middle, hmore]
      cases current <;> simp
    · next hcomma =>
      rw [if_neg hcomma] at hsplit
      obtain ⟨group', more', hmore, -⟩ := Flowchart.ExprReader.splitCommas_eq_cons
        (if token.opens then depth + 1 else if token.closes then depth - 1 else depth) rest
      dsimp only at hsplit
      rw [hmore] at hsplit
      obtain ⟨rfl, rfl⟩ := List.cons.inj hsplit
      have hih := ih hnext hmore
      rw [length_append, append_assoc] at hih
      exact hih

theorem argumentGroups_eq (inner : List Token) :
    arguments inner 0 0 0 inner = some (argumentGroups inner) := by
  obtain ⟨group, more, hsplit, -⟩ := Flowchart.ExprReader.splitCommas_eq_cons 0 inner
  unfold argumentGroups
  rw [hsplit]
  exact @arguments_eq inner [] [] inner group more 0 rfl hsplit

theorem callee_eq {head : List Token} (h : src.Ordered head) :
    callee src head = some (callee? src head) := by
  match head with
  | [] => rfl
  | [name] => rfl
  | [first, second] => rfl
  | [first, sign, second] => rfl
  | target :: arrow :: slash :: next :: more =>
    unfold callee callee?
    dsimp only
    cases hmore : (next :: more).reverse with
    | nil => rfl
    | cons method before =>
      cases before with
      | nil => rfl
      | cons dot before =>
        dsimp only
        have hdot : dot ∈ next :: more := by
          rw [← mem_reverse, hmore]
          exact mem_cons_of_mem _ mem_cons_self
        have hpath := h.sublist (sublist_append_right [target, arrow] (slash :: next :: more))
        have hle := (pairwise_cons.mp hpath.sorted).1 dot hdot
        have hlt := (hpath.placed slash mem_cons_self).2.2
        have hmarks := (hpath.placed dot (mem_cons_of_mem _ hdot)).1
        rw [slice?_of_le (by omega) hmarks]
        split <;> rfl

theorem mapM_eq_map {f : α → Option β} {g : α → β} {list : List α}
    (h : ∀ a ∈ list, f a = some (g a)) : list.mapM f = some (list.map g) := by
  induction list with
  | nil => rfl
  | cons a list ih =>
    rw [mapM_cons, h a mem_cons_self,
      ih fun b hb => h b (mem_cons_of_mem _ hb)]
    rfl

theorem ofTokens_eq {tokens : List Token} (h : src.Ordered tokens) (hne : tokens ≠ [])
    (hbound : tokens.length ≤ bound) :
    ofTokens src tokens = some (Flowchart.ExprReader.ofTokens src bound tokens) := by
  induction bound generalizing tokens with
  | zero => exact absurd (eq_nil_of_length_eq_zero (Nat.le_zero.mp hbound)) hne
  | succ bound ih =>
    rw [ofTokens, extentOf_eq h hne]
    match tokens with
    | [] => rfl
    | [first] => rfl
    | first :: second :: more =>
      unfold Flowchart.ExprReader.ofTokens
      dsimp only
      rw [length_cons] at hbound
      split
      · rw [ih (h.sublist (sublist_cons_self ..)) (cons_ne_nil _ _) (by omega)]
        rfl
      rw [callParts_eq]
      cases hparts : callParts? (first :: second :: more) with
      | none => rfl
      | some parts =>
        obtain ⟨head, inner⟩ := parts
        obtain ⟨opening, closing, hsplit, -⟩ := Flowchart.ExprReader.callParts?_eq_some hparts
        have hhead : head.Sublist (first :: second :: more) := by
          rw [hsplit]
          exact sublist_append_left _ _
        have hargs : (argumentGroups inner).mapM (fun group =>
            if group.length < more.length + 2 then ofTokens src group else none) =
            some ((argumentGroups inner).map (Flowchart.ExprReader.ofTokens src bound)) := by
          refine mapM_eq_map fun group hgroup => ?_
          have hwithin := Flowchart.ExprReader.splitCommas_within (mem_filter.mp hgroup).1
          have hshort := hwithin.length_le
          have hlength := congrArg List.length hsplit
          simp only [length_append, length_cons] at hlength hbound
          rw [if_pos (by omega)]
          obtain ⟨hpart, hfull⟩ := argument_within hparts hgroup
          exact ih (h.sublist hpart.sublist) hfull (by omega)
        change (arguments inner 0 0 0 inner).bind _ = _
        rw [argumentGroups_eq]
        change Option.bind ((argumentGroups inner).mapM _) _ = _
        rw [hargs]
        rw [callee_eq (h.sublist hhead)]
        dsimp only
        cases callee? src head <;> rfl

/-- The strict reader collects the tokens of an expression. -/
theorem collect_eq (stop : Text) (depth : Nat) (lexemes : List Lexeme) :
    collect src stop depth lexemes =
      some (Flowchart.ExprReader.collect src stop depth lexemes) := by
  induction lexemes generalizing depth with
  | nil => rfl
  | cons lexeme rest ih =>
    have hstep (depth : Nat) : (do
        let more ← collect src stop depth rest
        some (more.map fun found => (lexeme.token :: found.1, found.2))) = some (do
          let found ← Flowchart.ExprReader.collect src stop depth rest
          pure (lexeme.token :: found.1, found.2)) := by
      rw [ih]
      cases Flowchart.ExprReader.collect src stop depth rest <;> rfl
    unfold collect Flowchart.ExprReader.collect
    dsimp only
    split
    · rfl
    split
    · exact hstep (depth + 1)
    split
    · cases depth with
      | zero => rfl
      | succ depth => exact hstep depth
    split
    · rfl
    · exact hstep depth

theorem safe_readUntil (hc : Ready src c) (stop : Text) :
    SafeAt src c (fun _ c' => Past src c c') (readUntil src stop)
      (Flowchart.ExprReader.readUntil src stop) := by
  constructor
  · unfold readUntil Flowchart.ExprReader.readUntil
    rw [collect_eq]
    cases hcollect : Flowchart.ExprReader.collect src stop 0 c.rest with
    | error => rfl
    | ok found =>
      obtain ⟨tokens, rest⟩ := found
      obtain ⟨taken, hrest, rfl, -⟩ := Flowchart.ExprReader.collect_eq_ok hcollect
      have htokens : (taken.map Lexeme.token).Sublist (flat c.rest) := by
        rw [hrest, flat_append]
        exact (Flowchart.StatementReader.map_token_sublist taken).trans
          (sublist_append_left _ _)
      simp only [Option.bind_eq_bind, Option.bind_some]
      cases hlast : (taken.map Lexeme.token).getLast? with
      | none => rfl
      | some last =>
        have hne : taken.map Lexeme.token ≠ [] := by
          intro hnil
          rw [hnil] at hlast
          cases hlast
        rw [ofTokens_eq (hc.ordered.sublist htokens) hne le_rfl]
        rfl
  · intro value c' h
    obtain ⟨-, taken, htakes, hforms⟩ := Flowchart.ExprReader.readUntil_eq_ok h
    obtain ⟨first, more, rfl⟩ := exists_cons_of_ne_nil hforms.nonempty
    exact ⟨hc.takes htakes, hc.takesPast htakes⟩

end ExprReader

end Flowchart.Strict
