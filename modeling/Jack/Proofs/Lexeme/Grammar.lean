import Jack.Lexeme.Scan

/-!
The lexical grammar: what may stand between the lexemes of a text, how a token is spelled, and what it
is for a text to be laid out as gaps and lexemes. Nothing is said here of how a text is read.
-/

namespace Jack.Lexeme

/-- A blank or a comment. A block comment ends at the first `*/` in it. -/
inductive Filler : List Char → Prop
  | blank {c : Char} (h : isBlank c) : Filler [c]
  | lineComment {body : List Char} (h : '\n' ∉ body) : Filler ('/' :: '/' :: body ++ ['\n'])
  | blockComment {body : List Char} (h : ¬ ['*', '/'] <:+: body) :
    Filler ('/' :: '*' :: body ++ ['*', '/'])

inductive Gap : List Char → Prop
  | nil : Gap []
  | append {f g : List Char} : Filler f → Gap g → Gap (f ++ g)

/-- The gap behind the last lexeme, where the end of the text may end a line comment. -/
inductive LastGap : List Char → Prop
  | closed {g : List Char} : Gap g → LastGap g
  | lineComment {g body : List Char} (hg : Gap g) (h : '\n' ∉ body) :
    LastGap (g ++ '/' :: '/' :: body)

inductive Spells : List Char → Token → Prop
  | symbol (s : Symbol) : Spells [s.char] (.symbol s)
  | keyword (k : Keyword) : Spells k.text.toList (.keyword k)
  | identifier {c : Char} {cs : List Char} (hc : isWordStart c) (hcs : ∀ d ∈ cs, isWordChar d)
    (hk : ∀ k : Keyword, k.text.toList ≠ c :: cs) :
    Spells (c :: cs) (.identifier (String.ofList (c :: cs)))
  | integer {d : Char} {ds : List Char} (hd : ∀ e ∈ d :: ds, e.isDigit)
    (hn : Nat.ofDigitChars 10 (d :: ds) 0 ≤ maxConstant) :
    Spells (d :: ds) (.integer (Nat.ofDigitChars 10 (d :: ds) 0))
  | string {cs : List Char} (hcs : ∀ c ∈ cs, isStringChar c) (hn : cs.length ≤ maxConstant) :
    Spells ('"' :: cs ++ ['"']) (.string (String.ofList cs))

/-- The lexeme of the token may stand before `rest`: it would not be read on into it. -/
def Separate : Token → List Char → Prop
  | .keyword _, rest | .identifier _, rest | .integer _, rest =>
    ∀ c ∈ rest.head?, isWordChar c = false
  | .symbol s, rest => s = .slash → ∀ c ∈ rest.head?, c ≠ '/' ∧ c ≠ '*'
  | .string _, _ | .eof, _ => True

/-- A text as gaps and lexemes, in turns. -/
inductive Layout where
  | last (gap : List Char)
  | next (gap text : List Char) (token : Token) (rest : Layout)

namespace Layout

def text : Layout → List Char
  | .last gap => gap
  | .next gap text _ rest => gap ++ text ++ rest.text

def tokens : Layout → List Token
  | .last _ => []
  | .next _ _ token rest => token :: rest.tokens

/-- The tokens with the places of their first characters, when the character before the text stands
at `l`. -/
def lexemes (l : Location) : Layout → List Lexeme
  | .last _ => []
  | .next gap text token rest =>
    ⟨token, l.after (gap ++ text.take 1)⟩ :: rest.lexemes (l.after (gap ++ text))

def Valid : Layout → Prop
  | .last gap => LastGap gap
  | .next gap text token rest =>
    Gap gap ∧ Spells text token ∧ Separate token rest.text ∧ rest.Valid

theorem map_token_lexemes (l : Location) (layout : Layout) :
    (layout.lexemes l).map (·.token) = layout.tokens := by
  induction layout generalizing l with
  | last => rfl
  | next gap text token rest ih => simp [lexemes, tokens, ih]

/-- The layout with `f` in front of its first gap. -/
def prepend (f : List Char) : Layout → Layout
  | .last gap => .last (f ++ gap)
  | .next gap text token rest => .next (f ++ gap) text token rest

variable {f : List Char}

theorem text_prepend (f : List Char) (layout : Layout) :
    (layout.prepend f).text = f ++ layout.text := by
  cases layout <;> simp [prepend, text]

theorem Valid.prepend {layout : Layout} (h : layout.Valid) (hf : Filler f) :
    (layout.prepend f).Valid := by
  cases layout with
  | last gap =>
    cases h with
    | closed hg => exact .closed (.append hf hg)
    | lineComment hg hb =>
      have := LastGap.lineComment (.append hf hg) hb
      rwa [List.append_assoc] at this
  | next gap text token rest => exact ⟨.append hf h.1, h.2⟩

end Layout

end Jack.Lexeme
