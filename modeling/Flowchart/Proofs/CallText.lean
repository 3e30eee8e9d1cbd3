import Flowchart.Proofs.Rebinding
import Flowchart.Proofs.Seams

/-!
The text of any recognized call. Whatever becomes of its arguments, what is rendered is the variable
that keeps the result, the check, what is invoked, and between parentheses a text that closes the
brackets it opens.
-/
namespace Flowchart

open ExprReader Token List Lexeme

variable {first second : List Token} {text key : Text} {property : Property}

namespace Lexeme

theorem texts_ofTokens (tokens : List Token) :
    texts (ofTokens [] tokens) = (tokens.filter (!·.isComment)).map Token.text := by
  rw [← map_token_ofTokens [], map_map]
  rfl

theorem flat_ofTokens_eq {tokens : List Token} (pending : List Token)
    (hpending : tokens ≠ [] ∨ pending = [])
    (hlast : tokens.getLast?.any Token.isComment = false) :
    flat (ofTokens pending tokens) = pending ++ tokens := by
  induction tokens generalizing pending with
  | nil => rw [hpending.resolve_left fun hne => hne rfl]; rfl
  | cons token tokens ih =>
    unfold ofTokens
    cases tokens with
    | nil =>
      have hplain : token.isComment = false := hlast
      rw [if_neg (by rw [hplain]; exact Bool.false_ne_true)]
      rfl
    | cons second tokens =>
      split
      · rw [ih _ (.inl (cons_ne_nil _ _)) hlast, append_assoc]
        rfl
      · rw [flat, ih [] (.inr rfl) hlast, nil_append]

end Lexeme

namespace Token

/-- Tokens after which no comment, bracket or parenthesis is left open. -/
structure Shut (tokens : List Token) : Prop where
  last : tokens.getLast?.any isComment = false
  passes : passes ";" 0 (texts (ofTokens [] tokens)) = true
  parens : parens 0 (texts (ofTokens [] tokens)) = true

namespace Shut

theorem nil : Shut [] := ⟨rfl, rfl, rfl⟩

theorem append (hfirst : Shut first) (hsecond : Shut second) : Shut (first ++ second) := by
  have htexts : texts (ofTokens [] (first ++ second)) =
      texts (ofTokens [] first) ++ texts (ofTokens [] second) := by
    rw [Call.ofTokens_append (.inr rfl) hfirst.last]
    exact map_append
  refine ⟨Text.last_append hfirst.last hsecond.last, ?_, ?_⟩ <;> rw [htexts]
  · exact passes_append hfirst.passes hsecond.passes
  · exact parens_append hfirst.parens hsecond.parens

theorem single {token : Token} (hplain : token.isComment = false)
    (hopens : ExprReader.opens token.text = false) (hcloses : ExprReader.closes token.text = false)
    (hsemicolon : token.text ≠ ";") : Shut [token] := by
  have htexts : texts (ofTokens [] [token]) = [token.text] := by
    rw [texts_ofTokens, filter_cons, hplain]
    rfl
  have hopening : token.text ≠ "(" := fun heq => absurd (heq ▸ hopens) (by decide)
  have hclosing : token.text ≠ ")" := fun heq => absurd (heq ▸ hcloses) (by decide)
  refine ⟨hplain, ?_, ?_⟩ <;> rw [htexts]
  · rw [passes_plain _ (fun hboth => hsemicolon hboth.2) hopens hcloses hsemicolon]
    rfl
  · rw [ExprReader.parens, if_neg hopening, if_neg hclosing]
    rfl

theorem word {token : Token} (hword : token.isWord) (htext : Text.isWord token.text) :
    Shut [token] :=
  have hneutral := Call.Neutral.of_isWord hword htext
  .single hneutral.plain hneutral.opens hneutral.closes hneutral.semicolon

end Shut

end Token

namespace Text

/-- Wherever the text stands, it is cut into tokens that leave nothing open. -/
def Closed (text : Text) : Prop := ∀ mark, ∃ tokens, Cuts mark text tokens ∧ Shut tokens

/-- The texts of the tokens that are not comments. -/
def proper (tokens : List (TokenClass × Text)) : List Text :=
  (tokens.filter (·.1 ≠ .comment)).map Prod.snd

/-- The text has tokens, the last of which is not a comment, and closes the brackets it opens. -/
def isClosed (text : Text) : Bool :=
  (tokens? text).any fun tokens => tokens.getLast?.any (·.1 ≠ .comment) &&
    passes ";" 0 (proper tokens) && parens 0 (proper tokens)

theorem proper_eq_texts (tokens : List Token) :
    proper (tokens.map fun token => (token.cls, token.text)) =
      texts (ofTokens [] tokens) := by
  rw [texts_ofTokens]
  unfold proper
  rw [filter_map, map_map]
  refine congrArg (List.map _) (filter_congr fun token _ => ?_)
  unfold Token.isComment
  simp

/-- The tokens of a text at some place are those that it has as a text of its own. -/
theorem cuts_of_tokens? {found : List (TokenClass × Text)} (h : tokens? text = some found)
    (mark : Mark) :
    ∃ tokens, Cuts mark text tokens ∧ tokens.map (fun token => (token.cls, token.text)) = found := by
  obtain ⟨tokens, hscan, rfl⟩ := scan_of_tokens? h
  obtain ⟨tokens', hcuts, hmoved⟩ := (scan_eq_ok_iff.mp hscan).moved mark
  exact ⟨tokens', hcuts, Moved.keys hmoved⟩

theorem closed_of_isClosed (h : isClosed text) : Closed text := by
  intro mark
  obtain ⟨found, hfound, h⟩ := (Option.any_eq_true _ _).mp h
  obtain ⟨tokens, hcuts, rfl⟩ := cuts_of_tokens? hfound mark
  rw [Bool.and_eq_true, Bool.and_eq_true, proper_eq_texts] at h
  obtain ⟨⟨hlast, hpasses⟩, hparens⟩ := h
  refine ⟨tokens, hcuts, ?_, hpasses, hparens⟩
  rw [getLast?_map, Option.any_map] at hlast
  obtain ⟨last, hlast, hcls⟩ := (Option.any_eq_true _ _).mp hlast
  rw [hlast]
  exact decide_eq_false (of_decide_eq_true hcls)

theorem ne_nil_of_isClosed (h : isClosed text) : text ≠ [] := by
  rintro rfl
  cases h

namespace Closed

theorem nil : Closed [] := fun _ => ⟨[], .done rfl, .nil⟩

theorem append {a b : Text} (ha : Closed a) (hb : Closed b)
    (hseparates : b.head?.all separates) : Closed (a ++ b) := by
  intro mark
  obtain ⟨first, hfirst, hshut⟩ := ha mark
  obtain ⟨second, hsecond, hshut'⟩ := hb (mark.after a)
  exact ⟨first ++ second, hfirst.followed hshut.last hsecond hseparates, hshut.append hshut'⟩

theorem word (h : isWord text) : Closed text := by
  intro mark
  obtain ⟨token, hcuts, hword, rfl⟩ := Call.keyword_cuts h mark
  exact ⟨[token], hcuts, .word hword h⟩

/-- A sign that is neither bracket nor semicolon, with a blank after it, before a closed text. -/
theorem sign {c : Char} (hblank : isBlank c = false)
    (htake : take? c (' ' :: text) = some (.symbol, [c], ' ' :: text))
    (hopens : ExprReader.opens [c] = false) (hcloses : ExprReader.closes [c] = false)
    (hsemicolon : c ≠ ';') (h : Closed text) : Closed (c :: ' ' :: text) := by
  intro mark
  obtain ⟨tokens, hcuts, hshut⟩ := h ((mark.after [c]).after " ")
  have hrest : Cuts (mark.after [c]) ([' '] ++ text) tokens := .blank rfl hcuts
  obtain ⟨token, hall, hcls, htext⟩ : ∃ token, Cuts mark ([] ++ c :: (' ' :: text)) (token :: tokens) ∧
      token.cls = .symbol ∧ token.text = [c] := ⟨_, .token rfl hblank htake hrest, rfl, rfl⟩
  have hsingle : Shut [token] := .single (decide_eq_false (by rw [hcls]; decide)) (htext ▸ hopens)
    (htext ▸ hcloses) (by rw [htext]; exact fun heq => hsemicolon (List.cons.inj heq).1)
  exact ⟨token :: tokens, hall, hsingle.append hshut⟩

theorem named {name value : Text} (hname : isWord name) (hvalue : Closed value) :
    Closed (name ++ " = " ++ value) := by
  have hequals : Closed ('=' :: ' ' :: value) :=
    .sign (by decide) rfl (by decide) (by decide) (by decide) hvalue
  have hapart : Closed ([' '] ++ ('=' :: ' ' :: value)) := by
    intro mark
    obtain ⟨tokens, hcuts, hshut⟩ := hequals (mark.after " ")
    exact ⟨tokens, .blank rfl hcuts, hshut⟩
  rw [append_assoc]
  exact (Closed.word hname).append hapart rfl

end Closed

end Text

namespace Render

open Call (Given)

theorem closed_pieceText {piece : Given}
    (hname : ∀ name, piece.1 = some name → Text.isWord name)
    (hvalue : Text.Closed (Text.trim piece.2)) : Text.Closed (pieceText piece) := by
  obtain ⟨_ | name, value⟩ := piece
  · exact hvalue
  · have hword := hname name rfl
    unfold pieceText
    dsimp only
    rw [Text.trim_word hword]
    exact .named hword hvalue

/-- Arguments with commas between them leave nothing open when none of them does. -/
theorem closed_listed {pieces : List Given} (h : ∀ piece ∈ pieces, Text.Closed (pieceText piece))
    (isFirst : Bool) : Text.Closed (listed isFirst pieces) := by
  induction pieces generalizing isFirst with
  | nil => exact .nil
  | cons piece pieces ih =>
    have hmore := (h piece mem_cons_self).append
      (ih (fun other hother => h other (mem_cons_of_mem _ hother)) false)
      (Call.separates_listed pieces)
    unfold listed
    cases isFirst with
    | true => exact hmore
    | false => exact .sign (by decide) rfl (by decide) (by decide) (by decide) hmore

theorem mem_pieces {isNamed : Bool} {properties : Properties} {piece : Given}
    (h : piece ∈ pieces isNamed properties) :
    ∃ entry ∈ properties, entry.2.isBlank = false ∧ piece.2 = entry.2.value ∧
      ∀ name, piece.1 = some name → name = entry.1 := by
  induction properties generalizing isNamed with
  | nil => cases h
  | cons entry properties ih =>
    rw [pieces] at h
    split at h
    · obtain ⟨entry, hmem, hentry⟩ := ih h
      exact ⟨entry, mem_cons_of_mem _ hmem, hentry⟩
    · next hblank =>
      rcases mem_cons.mp h with rfl | h
      · refine ⟨_, mem_cons_self, eq_false_of_ne_true hblank, rfl, fun name hname => ?_⟩
        cases isNamed <;> cases hname
        rfl
      · obtain ⟨entry, hmem, hentry⟩ := ih h
        exact ⟨entry, mem_cons_of_mem _ hmem, hentry⟩

end Render

theorem Properties.mem_insert {properties : Properties} {entry : Text × Property}
    (h : entry ∈ insert key property properties) :
    entry = (key, property) ∨ entry ∈ properties := by
  induction properties with
  | nil => exact .inl (mem_singleton.mp h)
  | cons other properties ih =>
    rw [insert] at h
    split at h
    · next heq =>
      rcases mem_cons.mp h with rfl | h
      · exact .inl (congrArg (·, property) heq)
      · exact .inr (mem_cons_of_mem _ h)
    · rcases mem_cons.mp h with rfl | h
      · exact .inr mem_cons_self
      · exact (ih h).imp_right (mem_cons_of_mem _)

namespace Call

open Text

variable {current : Option ModuleName} {symbol : Symbol} {args : List Expr} {draft after : Draft}

theorem isWord_numbered {base : Text} (h : isWord base) (n : Nat) :
    isWord (base ++ Text.ofNat n) := by
  have hdigits : (Text.ofNat n).all isWordPart := all_eq_true.mpr fun c hc =>
    (word_of_isDigit (Nat.isDigit_of_mem_toDigits (by decide) (by decide) hc)).2
  cases base with
  | nil => cases h
  | cons c base =>
    change (isWordStart c && (base ++ _).all isWordPart)
    rwa [all_append, hdigits, Bool.and_true]

theorem isWord_placeKey (place : Nat) : isWord (placeKey place) :=
  isWord_numbered (by decide) place

theorem free_placeKey (place : Nat) : Key.callStructure.contains (placeKey place) = false := by
  have hheads : ∀ key ∈ Key.callStructure, key.head? ≠ some 'a' := by decide
  exact eq_false_of_ne_true fun hmem => hheads _ (contains_iff_mem.mp hmem) rfl

/-- A property that an argument is written from, or that may be left out. -/
structure Fits (key : Text) (property : Property) : Prop where
  word : isWord key = true
  free : Key.callStructure.contains key = false
  optional : property.isBlank = true → property.optional = true
  closed : property.isBlank = false → Closed (trim property.value)

theorem trim_named {name value : Text} (hname : isWord name) (hvalue : value ≠ [])
    (htrim : trim value = value) : trim (name ++ " = " ++ value) = name ++ " = " ++ value := by
  obtain ⟨c, rest, rfl⟩ : ∃ c rest, name = c :: rest :=
    exists_cons_of_ne_nil (by rintro rfl; cases hname)
  have hfirst := (ends_of_trim (trim_word hname)).1
  have hlast := (ends_of_trim htrim).2
  refine trim_eq_self hfirst ?_
  rw [getLast?_append_of_ne_nil _ hvalue]
  exact hlast

theorem Fits.of_isClosed (hword : isWord key)
    (hfree : Key.callStructure.contains key = false) (hvalue : isClosed property.value)
    (htrim : trim property.value = property.value) : Fits key property where
  word := hword
  free := hfree
  optional := by
    intro hblank
    unfold Property.isBlank at hblank
    rw [htrim] at hblank
    exact absurd (List.isEmpty_iff.mp hblank) (ne_nil_of_isClosed hvalue)
  closed := fun _ => htrim.symm ▸ closed_of_isClosed hvalue

/-- The second draft is the first one with properties of arguments after its own. -/
def Extends (draft after : Draft) : Prop :=
  ∃ extra, after = { draft with properties := draft.properties ++ extra } ∧
    ∀ entry ∈ extra, Fits entry.1 entry.2

theorem Extends.refl (draft : Draft) : Extends draft draft :=
  ⟨[], by rw [append_nil], nofun⟩

theorem Extends.withProperty (h : Extends draft after)
    (hdraft : ∀ key ∈ draft.properties.map Prod.fst, Key.callStructure.contains key)
    (hfits : Fits key property) : Extends draft (after.withProperty key property) := by
  obtain ⟨extra, rfl, hextra⟩ := h
  refine ⟨Properties.insert key property extra, ?_, fun entry hentry => ?_⟩
  · have hfresh : key ∉ draft.properties.map Prod.fst := fun hmem =>
      Bool.false_ne_true (hfits.free.symm.trans (hdraft key hmem))
    exact congrArg (fun properties => { draft with properties := properties })
      (Properties.insert_append property extra hfresh)
  · rcases Properties.mem_insert hentry with rfl | hmem
    · exact hfits
    · exact hextra entry hmem

/-- Whatever their names and places, closed arguments are added as properties that fit. -/
theorem withArguments_extends (current : Option ModuleName)
    (hdraft : ∀ key ∈ draft.properties.map Prod.fst, Key.callStructure.contains key)
    (hparams : ∀ param ∈ symbol.params, isWord param.name)
    (hargs : ∀ arg ∈ args, isClosed (given arg).2) :
    Extends draft (withArguments current symbol args draft) := by
  have hvalues : ∀ piece ∈ args.map given, isClosed piece.2 ∧ trim piece.2 = piece.2 := by
    intro piece hmem
    obtain ⟨arg, harg, rfl⟩ := mem_map.mp hmem
    exact ⟨hargs arg harg, trim_given arg⟩
  have hfits {key : Text} {property : Property} {name : Option Text} (hword : isWord key)
      (hfree : Key.callStructure.contains key = false)
      (hmem : (name, property.value) ∈ args.map given) : Fits key property :=
    .of_isClosed hword hfree (hvalues _ hmem).1 (hvalues _ hmem).2
  refine List.foldlRecOn _ _ (List.foldlRecOn _ _ (List.foldlRecOn _ _ (.refl draft) ?_) ?_) ?_
  · -- The argument for a parameter, under the name of the parameter or under its place.
    rintro after hafter ⟨param, place⟩ hitem
    have hname : isWord param.name := hparams param (by
      rw [← zipIdx_map_fst 0 symbol.params]
      exact mem_map_of_mem hitem)
    unfold withParameter
    dsimp only
    rw [argumentFor_eq]
    cases hvalue : assigned (args.map given) place param with
    | some value =>
      obtain ⟨name, hmem⟩ : ∃ name, (name, value) ∈ args.map given :=
        (assigned_cases hvalue).elim (fun h => ⟨_, h.2⟩) fun h => ⟨_, h⟩
      split
      · exact hafter.withProperty hdraft (hfits (isWord_placeKey place) (free_placeKey place) hmem)
      · next hfree =>
        exact hafter.withProperty hdraft (hfits hname (eq_false_of_ne_true hfree) hmem)
    | none =>
      split
      · exact hafter
      next hfree =>
      dsimp only
      split
      · next hdefault =>
        exact hafter.withProperty hdraft
          ⟨hname, eq_false_of_ne_true hfree, fun _ => hdefault, fun hblank => by cases hblank⟩
      · exact hafter
  · rintro after hafter ⟨value, place⟩ hitem
    have hmem : value ∈ byPlace (args.map given) := by
      rw [← positional_eq, ← zipIdx_map_fst 0 (positional args)]
      exact mem_map_of_mem (mem_of_mem_drop hitem)
    exact hafter.withProperty hdraft
      (hfits (isWord_placeKey place) (free_placeKey place) (mem_of_byPlace hmem))
  · rintro after hafter ⟨place, name, value⟩ harg
    have hmem : (some name, value) ∈ args.map given := by
      refine mem_of_byName ?_
      rw [← named_eq]
      exact mem_map_of_mem harg
    have hname : isWord name := isWord_of_given hmem rfl
    unfold withUnknown
    split
    · exact hafter
    split
    · -- The name is written with the value, as the key is that of a place.
      obtain ⟨hclosed, htrim⟩ := hvalues _ hmem
      have hwhole := trim_named hname (ne_nil_of_isClosed hclosed) htrim
      refine hafter.withProperty hdraft ⟨isWord_placeKey place, free_placeKey place, ?_, fun _ => ?_⟩
      · intro hblank
        have hempty : trim (name ++ " = " ++ value) = [] := List.isEmpty_iff.mp hblank
        rw [hwhole] at hempty
        simp at hempty
      · change Closed (trim (name ++ " = " ++ value))
        rw [hwhole]
        exact .named hname (closed_of_isClosed hclosed)
    · next hfree => exact hafter.withProperty hdraft (hfits hname (eq_false_of_ne_true hfree) hmem)

def recognized? (setting : Setting) (value : Expr) : Option (Symbol × Callee × List Expr) :=
  match value.unchecked with
  | .call extent callee args =>
    ((setting.symbols.resolve? (.call extent callee args)).filter fun symbol =>
      invokes callee symbol.kind).map fun symbol => (symbol, callee, args)
  | _ => none

variable {setting : Setting} {value : Expr} {callee : Callee}

theorem recognized?_eq_some (h : recognized? setting value = some (symbol, callee, args)) :
    ∃ extent, value.unchecked = .call extent callee args ∧
      setting.symbols.resolve? (.call extent callee args) = some symbol ∧
      invokes callee symbol.kind := by
  unfold recognized? at h
  split at h
  · next extent callee' args' hcall =>
    obtain ⟨symbol', hsymbol, heq⟩ := Option.map_eq_some_iff.mp h
    cases heq
    obtain ⟨hsymbol, hinvokes⟩ := Option.filter_eq_some_iff.mp hsymbol
    exact ⟨extent, hcall, hsymbol, hinvokes⟩
  · cases h

theorem recognize_of_recognized? (h : recognized? setting value = some (symbol, callee, args))
    (draft : Draft) :
    recognize setting value draft = .recognized ((withArguments setting.current symbol args
      (withCallee setting.connectors symbol draft callee)).withFlag (checkFlag value)) := by
  obtain ⟨extent, hcall, hsymbol, hinvokes⟩ := recognized?_eq_some h
  unfold recognize
  rw [hcall]
  dsimp only
  rw [hsymbol]
  dsimp only
  rw [if_pos hinvokes]

theorem kind_withCallee (connectors : Option ConnectorIndex) (symbol : Symbol) (draft : Draft)
    (callee : Callee) : (withCallee connectors symbol draft callee).kind =
      (withCallee connectors symbol {} callee).kind := by
  rcases callee with ⟨_ | qualifier, name⟩ | ⟨target, method⟩ | ⟨target, path, method⟩ <;> rfl

end Call

namespace Lead

def isFinal : Lead → Bool
  | declared isFinal _ _ => isFinal
  | _ => false

/-- The draft of a statement before its call is looked at. -/
def draft (extent : Extent) (lead : Lead) : Draft :=
  { Draft.begun extent with properties := lead.properties }

/-- The draft of a statement after its call is looked at. -/
def finish (lead : Lead) (draft : Draft) : Draft :=
  if lead.isFinal then draft.withFlag .final else draft

theorem properties_finish (lead : Lead) (draft : Draft) :
    (lead.finish draft).properties = draft.properties := by
  unfold finish
  cases lead.isFinal <;> rfl

theorem kind_finish (lead : Lead) (draft : Draft) : (lead.finish draft).kind = draft.kind := by
  unfold finish
  cases lead.isFinal <;> rfl

/-- The flags of the statement's node, with those for the check of its call last. -/
theorem flags_finish {lead : Lead} {draft : Draft} (check : Flags)
    (h : draft.flags ∈ [({} : Flags), .remote, .resource]) :
    ∃ flags ∈ Render.uncheckedFlags,
      (lead.finish (draft.withFlag check)).flags = flags.insert check := by
  obtain ⟨hplain, hfinal⟩ := Call.mem_uncheckedFlags _ h
  unfold finish
  cases lead.isFinal with
  | true =>
    refine ⟨_, hfinal, ?_⟩
    change Flags.mk ((draft.flags.bits ||| check.bits) ||| Flags.final.bits) =
      Flags.mk ((draft.flags.bits ||| Flags.final.bits) ||| check.bits)
    rw [UInt8.or_assoc, UInt8.or_assoc, UInt8.or_comm check.bits]
  | false => exact ⟨_, hplain, rfl⟩

end Lead

/-- The value of a declaration, an assignment or an expression, and what becomes of it. -/
def Statement.held? : Statement → Option (Lead × Expr)
  | .varDecl _ isFinal typeName name (some value) => some (.declared isFinal typeName name, value)
  | .assign _ target value => some (.assigned target, value)
  | .expression _ value => some (.alone, value)
  | _ => none

namespace Call

open Text

variable {setting : Setting} {value : Expr} {callee : Callee} {symbol : Symbol} {args : List Expr}
  {statement : Statement} {lead : Lead}

theorem node?_held (hheld : statement.held? = some (lead, value))
    (h : recognized? setting value = some (symbol, callee, args)) :
    ∃ extent, statement.node? setting = some (lead.finish ((withArguments setting.current symbol args
      (withCallee setting.connectors symbol (lead.draft extent) callee)).withFlag
        (checkFlag value))).toNode := by
  cases statement with
  | varDecl extent isFinal typeName name init =>
    cases init with
    | none => cases hheld
    | some init =>
      cases hheld
      refine ⟨extent, ?_⟩
      rw [Statement.node?, Walker.declare, recognize_of_recognized? h]
      rfl
  | assign extent target value =>
    cases hheld
    refine ⟨extent, ?_⟩
    rw [Statement.node?, Walker.assign, recognize_of_recognized? h]
    rfl
  | expression extent value =>
    cases hheld
    refine ⟨extent, ?_⟩
    rw [Statement.node?, Walker.express, recognize_of_recognized? h]
    rfl
  | _ => cases hheld

theorem render_held (width : Nat) (hheld : statement.held? = some (lead, value))
    (h : recognized? setting value = some (symbol, callee, args))
    (hgiven : ∀ entry ∈ lead.properties, trim entry.2.value ≠ [])
    (hnames : ∀ name ∈ callee.names, isWord name)
    (hpath : ∀ path ∈ callee.path?, trim path ≠ [])
    (hkind : callee.accepts ((withCallee setting.connectors symbol {} callee).kind.getD default) =
      true)
    (hparams : ∀ param ∈ symbol.params, isWord param.name)
    (hargs : ∀ arg ∈ args, isClosed (given arg).2) :
    ∃ node inner, statement.node? setting = some node ∧ Closed inner ∧
      Render.render width node = .ok (lead.text ++ value.checkText ++ callee.text ++ "(" ++ inner ++
        ")" ++ ";") := by
  obtain ⟨extent, hnode⟩ := node?_held hheld h
  have hproperties : (withCallee setting.connectors symbol (lead.draft extent) callee).properties =
      lead.properties ++ callee.properties symbol :=
    @properties_withCallee setting.connectors symbol (lead.draft extent) callee lead.key_of_mem
  have hstructure : ∀ key ∈ (withCallee setting.connectors symbol (lead.draft extent)
      callee).properties.map Prod.fst, Key.callStructure.contains key := by
    rw [hproperties]
    exact Composed.key_of_mem lead symbol callee
  obtain ⟨extra, hextra, hfits⟩ := withArguments_extends setting.current hstructure hparams hargs
  rw [hextra] at hnode
  refine ⟨_, Render.listed true (Render.pieces false extra), hnode, ?_, ?_⟩
  · refine Render.closed_listed (fun piece hpiece => ?_) true
    obtain ⟨entry, hentry, hblank, hvalue, hname⟩ := Render.mem_pieces hpiece
    refine Render.closed_pieceText (fun name heq => ?_) (hvalue ▸ (hfits entry hentry).closed hblank)
    rw [hname name heq]
    exact (hfits entry hentry).word
  · let draft := withCallee setting.connectors symbol (lead.draft extent) callee
    let whole : Draft := { draft with properties := draft.properties ++ extra }
    obtain ⟨flags, hplain, hflags⟩ := @Lead.flags_finish lead whole (checkFlag value)
      (@flags_withCallee setting.connectors symbol (lead.draft extent) callee rfl)
    have hcomposed : Composed (lead.finish (whole.withFlag (checkFlag value))).toNode lead symbol
        callee extra := by
      refine .of_properties ((Lead.properties_finish lead _).trans
        (congrArg (· ++ extra) hproperties)) fun key hkey => ?_
      obtain ⟨entry, hentry, rfl⟩ := mem_map.mp hkey
      exact (hfits entry hentry).free
    refine hcomposed.render_eq width hgiven (fun name hname => .of_isWord (hnames name hname)) hpath
      ?_ hflags hplain
      (fun entry hentry => (hfits entry hentry).optional) fun piece hpiece name heq => ?_
    · rw [← kind_withCallee _ _ (lead.draft extent)] at hkind
      change callee.accepts ((lead.finish _).kind.getD default)
      rw [Lead.kind_finish]
      exact hkind
    · obtain ⟨entry, hentry, -, -, hname⟩ := Render.mem_pieces hpiece
      rw [hname name heq]
      exact trim_ne_nil_of_isWord (hfits entry hentry).word

end Call

end Flowchart
