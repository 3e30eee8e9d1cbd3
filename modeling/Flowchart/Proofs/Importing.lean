import Flowchart.Proofs.Framing

/-!
The imports that a node brings into a document. The modules that its properties name are written as
lines before the document, unless the document has them, and each line is read back as the import of
its module.
-/
namespace Flowchart

open List Token

variable {src : Source} {before rest : Text} {c c' : Cursor}

/-- An organization and a dotted name that are made of words. -/
def Text.NamesModule (text : Text) : Prop :=
  ∃ org first parts, text = org ++ '/' :: (first ++ parts.flatMap ('.' :: ·)) ∧
    ∀ word ∈ org :: first :: parts, isWord word

def Import.module (found : Import) : Text := found.org ++ "/" ++ found.name

/-- A token without comments, by the text before it. -/
def Lexeme.behind (before : Text) (cls : TokenClass) (text : Text) : Lexeme :=
  ⟨[], cls, text, ({} : Mark).after before, ({} : Mark).after (before ++ text)⟩

/-- The cursor stands before the rest of the text. -/
structure Source.Leaves (src : Source) (before rest : Text) (c : Cursor) : Prop where
  text : src.text = before ++ rest
  tokens : ∃ tokens, Cuts (({} : Mark).after before) rest tokens ∧
    c.rest = Lexeme.ofTokens [] tokens

namespace Source.Leaves

open Text Reader Cursor

theorem blank {gap : Text} (h : src.Leaves before (gap ++ rest) c) (hgap : gap.all isBlank) :
    src.Leaves (before ++ gap) rest c := by
  obtain ⟨tokens, hcuts, hrest⟩ := h.tokens
  refine ⟨by rw [h.text, append_assoc], tokens, ?_, hrest⟩
  rw [Mark.after_append]
  exact hcuts.unblank hgap

/-- The cursor goes past the first token of the rest. -/
theorem token {first : Char} {more text : Text} {cls : TokenClass}
    (h : src.Leaves before (first :: more) c) (hfirst : isBlank first = false)
    (htake : take? first more = some (cls, text, rest)) (hcls : cls ≠ .comment) :
    ∃ c', c.Takes [.behind before cls text] c' ∧ src.Leaves (before ++ text) rest c' := by
  obtain ⟨tokens, hcuts, hrest⟩ := h.tokens
  obtain ⟨_, _, _, others, hsame, hmore, rfl⟩ := hcuts.first hfirst
  rw [htake] at hsame
  cases hsame
  obtain ⟨body, rfl, rfl⟩ := take?_split htake
  rw [Lexeme.ofTokens, if_neg (by simpa [isComment] using hcls), ← Mark.after_append] at hrest
  rw [← Mark.after_append] at hmore
  exact ⟨{ c with rest := _, last := _ }, ⟨hrest, rfl, rfl⟩, by rw [h.text]; simp, others, hmore, rfl⟩

theorem word {word : Text} (h : src.Leaves before (word ++ rest) c) (hword : isWord word)
    (hrest : rest.head?.all (!isWordPart ·)) :
    ∃ c', c.Takes [.behind before .word word] c' ∧ src.Leaves (before ++ word) rest c' := by
  cases word with
  | nil => cases hword
  | cons first word =>
    obtain ⟨hblank, htake⟩ := take?_word hword hrest
    exact h.token hblank htake (by decide)

/-- A slash or a point is a token of its own where a word follows. -/
theorem sign {sign : Char} {word : Text} (h : src.Leaves before (sign :: (word ++ rest)) c)
    (hsign : sign ∈ ['/', '.']) (hword : isWord word) :
    ∃ c', c.Takes [.behind before .symbol [sign]] c' ∧
      src.Leaves (before ++ [sign]) (word ++ rest) c' := by
  cases word with
  | nil => cases hword
  | cons first word =>
    have hfirst : first ∉ ['/', '.', '='] := fun hmem => by
      have hstart := ((Bool.and_eq_true _ _).mp hword).1
      have hsigns : ∀ c ∈ ['/', '.', '='], isWordStart c = false :=
        List.forall_iff_forall_mem.mp (by decide)
      rw [hsigns first hmem] at hstart
      cases hstart
    have hstarts : ∀ c ∈ ['/', '.'], isBlank c = false ∧ c ≠ '\"' ∧ c ≠ '\x60' ∧ c.isDigit = false ∧
        isWordStart c = false :=
      List.forall_iff_forall_mem.mp (by decide)
    obtain ⟨hblank, hquote, hraw, hdigit, hstart⟩ := hstarts sign hsign
    -- the long symbols that begin with one of the two go on with a sign
    have hlong : ∀ s ∈ longSymbols, s.head?.all (· ∈ ['/', '.']) →
        s.tail.head?.any (· ∈ ['/', '.', '=']) := by
      decide
    have hnone : longSymbols.find? (fun s => s.isPrefixOf (sign :: (first :: word ++ rest))) = none := by
      refine find?_eq_none.mpr fun s hmem hstarts => ?_
      obtain ⟨more, hmore⟩ := List.isPrefixOf_iff_prefix.mp hstarts
      rcases s with _ | ⟨c, _ | ⟨d, s⟩⟩
      · cases hlong [] hmem rfl
      · obtain ⟨rfl, -⟩ := List.cons.inj hmore
        cases hlong _ hmem (decide_eq_true hsign)
      · obtain ⟨rfl, htail⟩ := List.cons.inj hmore
        obtain ⟨rfl, -⟩ := List.cons.inj htail
        exact hfirst (of_decide_eq_true (hlong _ hmem (decide_eq_true hsign)))
    have hslash : ¬(sign = '/' ∧ (first :: word ++ rest).head? = some '/') := fun hslash =>
      hfirst (Option.some.inj hslash.2 ▸ mem_cons_self)
    refine h.token hblank ?_ (by decide)
    rw [take?, if_neg hslash, if_neg hquote, if_neg hraw, if_neg (Bool.eq_false_iff.mp hdigit),
      if_neg (Bool.eq_false_iff.mp hstart), takeSymbol, hnone]

theorem semicolon (h : src.Leaves before (';' :: rest) c) :
    ∃ c', c.Takes [.behind before .symbol ";"] c' ∧ src.Leaves (before ++ ";") rest c' := by
  obtain ⟨hblank, -, htake⟩ := take?_lone (c := ';') rfl rest
  exact h.token hblank htake (by decide)

theorem ends_dotted (parts : List Text) (rest : Text) :
    (parts.flatMap ('.' :: ·) ++ ';' :: rest).head?.all (!isWordPart ·) := by
  cases parts <;> rfl

/-- The parts of a dotted name are read up to the semicolon. -/
theorem dotted {parts : List Text} {bound : Nat} {stop : Mark} (hparts : ∀ part ∈ parts, isWord part)
    (h : src.Leaves before (parts.flatMap ('.' :: ·) ++ ';' :: rest) c)
    (hread : FileReader.dottedTail src (({} : Mark).after before) bound c = .ok stop c') :
    stop = ({} : Mark).after (before ++ parts.flatMap ('.' :: ·)) ∧
      src.Leaves (before ++ parts.flatMap ('.' :: ·)) (';' :: rest) c' := by
  induction parts generalizing before bound c with
  | nil =>
    obtain _ | bound := bound
    · cases hread
    obtain ⟨_, htakes, -⟩ := h.semicolon
    have hat : c.at? "." = false := at?_of_takes htakes "."
    rw [FileReader.dottedTail, bind_of_ok (eat_of_not_at hat)] at hread
    cases hread
    exact ⟨by simp, by simpa using h⟩
  | cons part parts ih =>
    obtain _ | bound := bound
    · cases hread
    obtain ⟨hpart, hparts⟩ := forall_mem_cons.mp hparts
    rw [flatMap_cons, cons_append, cons_append, append_assoc] at h
    obtain ⟨_, hdot, h⟩ := h.sign (by decide) hpart
    obtain ⟨_, hword, h⟩ := h.word hpart (ends_dotted parts rest)
    rw [FileReader.dottedTail, bind_of_ok (eat_of_takes hdot rfl), if_pos rfl,
      bind_of_ok (expectWord_of_takes hword rfl)] at hread
    simpa using ih hparts h hread

/-- A line for a module is read as the import of the module. -/
theorem importDecl {module : Text} (hmodule : module.NamesModule)
    (h : src.Leaves before ("import " ++ module ++ ";\n" ++ rest) c) :
    ∃ keyword, c.peek? = some keyword ∧ keyword.is "import" ∧ ∀ {found c'},
      FileReader.importDecl src c = .ok found c' → found.module = module ∧
        src.Leaves (before ++ ("import " ++ module ++ ";\n")) rest c' := by
  obtain ⟨org, first, parts, rfl, hwords⟩ := hmodule
  obtain ⟨horg, hfirst, hparts⟩ : isWord org ∧ isWord first ∧ ∀ part ∈ parts, isWord part := by
    simpa using hwords
  have hline : ("import " : Text) ++ (org ++ '/' :: (first ++ parts.flatMap ('.' :: ·))) ++ ";\n" ++
      rest = "import" ++ (" " ++ (org ++ '/' :: (first ++ (parts.flatMap ('.' :: ·) ++
        ';' :: ("\n" ++ rest))))) := by simp
  rw [hline] at h
  obtain ⟨_, hkeyword, h⟩ := h.word (by decide) rfl
  obtain ⟨_, horg, h⟩ := (h.blank rfl).word horg rfl
  obtain ⟨_, hslash, h⟩ := h.sign (by decide) hfirst
  have htext := h.text
  obtain ⟨_, hfirst, h⟩ := h.word hfirst (ends_dotted parts _)
  refine ⟨_, peek?_of_takes hkeyword, rfl, fun hread => ?_⟩
  rw [FileReader.importDecl, bind_of_ok (expect_of_takes hkeyword rfl),
    bind_of_ok (expectWord_of_takes horg rfl), bind_of_ok (expect_of_takes hslash rfl),
    bind_of_ok (expectWord_of_takes hfirst rfl), get_bind] at hread
  obtain ⟨stop, _, htail, hread⟩ := bind_eq_ok hread
  obtain ⟨rfl, h⟩ := h.dotted hparts htail
  obtain ⟨_, hsemicolon, h⟩ := h.semicolon
  rw [bind_of_ok (expect_of_takes hsemicolon rfl)] at hread
  cases hread
  rw [← append_assoc first] at htext
  refine ⟨?_, by simpa using h.blank rfl⟩
  rw [Import.module, append_assoc _ first]
  exact (congrArg (org ++ "/" ++ ·) (slice_after htext)).trans (by simp)

/-- The lines for some modules are read as their imports. -/
theorem declarations {modules : List Text} {bound : Nat} {imports : List Import}
    {functions : List FunctionDef} (hmodules : ∀ module ∈ modules, module.NamesModule)
    (h : src.Leaves before (importLines modules ++ rest) c)
    (hread : FileReader.declarations src bound c = .ok (imports, functions) c') :
    ∃ behind, imports.map Import.module = modules ++ behind := by
  induction modules generalizing before bound c imports functions with
  | nil => exact ⟨_, rfl⟩
  | cons module modules ih =>
    obtain ⟨hmodule, hmodules⟩ := forall_mem_cons.mp hmodules
    obtain _ | bound := bound
    · cases hread
    rw [importLines, flatMap_cons, append_assoc] at h
    obtain ⟨keyword, hpeek, hkeyword, himport⟩ := h.importDecl hmodule
    rw [FileReader.declarations, get_bind, hpeek] at hread
    dsimp only at hread
    rw [if_pos hkeyword] at hread
    obtain ⟨found, c₁, hfound, hread⟩ := bind_eq_ok hread
    obtain ⟨⟨imports, functions⟩, c₂, hmore, hdone⟩ := bind_eq_ok hread
    cases hdone
    obtain ⟨hname, h⟩ := himport hfound
    obtain ⟨behind, hnames⟩ := ih hmodules h hmore
    exact ⟨behind, by rw [map_cons, hname, hnames]; rfl⟩

end Source.Leaves

/-- The modules that the properties of a node and of those below it name, in this order. -/
def Node.modules (node : Node) : List Text :=
  node.subtree.flatMap fun node => node.properties.flatMap fun entry => entry.2.imports

theorem Text.NamesModule.ofText? {text : Text} (h : text.NamesModule) :
    ∃ name, ModuleName.ofText? text = some name := by
  obtain ⟨org, first, parts, rfl, hwords⟩ := h
  have hslash : '/' ∉ org := fun hmem =>
    absurd (isWordPart_of_isWord (hwords org mem_cons_self) _ hmem) (by decide)
  have hne {word : Text} (hmem : word ∈ org :: first :: parts) : word ≠ [] := by
    rintro rfl
    cases hwords _ hmem
  refine ⟨⟨org, first ++ parts.flatMap ('.' :: ·)⟩, ?_⟩
  rw [ModuleName.ofText?, cut_append hslash]
  simp [hne]

namespace Session

end Session

end Flowchart
