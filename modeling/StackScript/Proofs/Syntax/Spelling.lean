import StackScript.Syntax.Parse

-- How a program is written in tokens: every node by its keywords, names, literals, operators and delimiters, with its parts
-- in source order between them. More than that stands only where the program does not depend on it: parentheses around an
-- expression, a semicolon behind a statement, and a comma behind the last pair of a hash.
namespace StackScript

def Mutability.token : Mutability → Token
  | fixed => .letWord
  | assignable => .varWord

def Token.Infix (t : Token) (operator : String) : Prop := 0 < t.precedence ∧ t.operator? = some operator

def parameterTokens (names : List String) : List Token := (names.map Token.identifier).intersperse .comma

mutual

inductive Expr.Spelled : Expr → List Token → Prop where
  | identifier {s : Span} {name : String} : Expr.Spelled (.identifier s name) [.identifier name]
  | integer {s : Span} {n : Int32} : Expr.Spelled (.integer s n) [.integer n]
  | float {s : Span} {x : Binary64} : Expr.Spelled (.float s x) [.float x]
  | string {s : Span} {text : String} : Expr.Spelled (.string s text) [.string text]
  | yes {s : Span} : Expr.Spelled (.boolean s true) [.trueWord]
  | no {s : Span} : Expr.Spelled (.boolean s false) [.falseWord]
  | bang {s : Span} {right : Expr} {ts : List Token} : Expr.Spelled right ts →
      Expr.Spelled (.unary s "!" right) (.bang :: ts)
  | minus {s : Span} {right : Expr} {ts : List Token} : Expr.Spelled right ts →
      Expr.Spelled (.unary s "-" right) (.minus :: ts)
  | binary {s : Span} {operator : String} {left right : Expr} {t : Token} {ts us : List Token} : t.Infix operator →
      Expr.Spelled left ts → Expr.Spelled right us → Expr.Spelled (.binary s operator left right) (ts ++ t :: us)
  | conditional {s : Span} {condition : Expr} {consequence : List Stmt} {ts us : List Token} : Expr.Spelled condition ts →
      BodySpelled consequence us → Expr.Spelled (.conditional s condition consequence none)
        (.ifWord :: .leftParen :: (ts ++ .rightParen :: .leftBrace :: (us ++ [.rightBrace])))
  | choice {s : Span} {condition : Expr} {consequence alternative : List Stmt} {ts us vs : List Token} :
      Expr.Spelled condition ts → BodySpelled consequence us → BodySpelled alternative vs →
      Expr.Spelled (.conditional s condition consequence (some alternative))
        (.ifWord :: .leftParen :: (ts ++ .rightParen :: .leftBrace ::
          (us ++ .rightBrace :: .elseWord :: .leftBrace :: (vs ++ [.rightBrace]))))
  | function {s : Span} {parameters : List String} {body : List Stmt} {ts : List Token} : BodySpelled body ts →
      Expr.Spelled (.function s none parameters body)
        (.fnWord :: .leftParen :: (parameterTokens parameters ++ .rightParen :: .leftBrace :: (ts ++ [.rightBrace])))
  | call {s : Span} {callee : Expr} {arguments : List Expr} {ts us : List Token} : Expr.Spelled callee ts →
      ListSpelled arguments us → Expr.Spelled (.call s callee arguments) (ts ++ .leftParen :: (us ++ [.rightParen]))
  | array {s : Span} {elements : List Expr} {ts : List Token} : ListSpelled elements ts →
      Expr.Spelled (.array s elements) (.leftBracket :: (ts ++ [.rightBracket]))
  | hash {s : Span} {pairs : List (Expr × Expr)} {ts : List Token} : PairsSpelled pairs ts →
      Expr.Spelled (.hash s pairs) (.leftBrace :: (ts ++ [.rightBrace]))
  | trailing {s : Span} {pairs : List (Expr × Expr)} {ts : List Token} : pairs ≠ [] → PairsSpelled pairs ts →
      Expr.Spelled (.hash s pairs) (.leftBrace :: (ts ++ [.comma, .rightBrace]))
  | index {s : Span} {target position : Expr} {ts us : List Token} : Expr.Spelled target ts → Expr.Spelled position us →
      Expr.Spelled (.index s target position) (ts ++ .leftBracket :: (us ++ [.rightBracket]))
  | parentheses {s : Span} {e : Expr} {ts : List Token} : Expr.Spelled e ts →
      Expr.Spelled (e.placed s) (.leftParen :: (ts ++ [.rightParen]))

-- A function has no name in itself, it takes that of its declaration.
inductive Stmt.Spelled : Stmt → List Token → Prop where
  | declare {s : Span} {mutability : Mutability} {name : String} {value : Expr} {ts : List Token} : Expr.Spelled value ts →
      Stmt.Spelled (.declare s mutability name (value.named name)) (mutability.token :: .identifier name :: .assign :: ts)
  | assign {s : Span} {name : String} {value : Expr} {ts : List Token} : Expr.Spelled value ts →
      Stmt.Spelled (.assign s name value) (.identifier name :: .assign :: ts)
  | returns {s : Span} {value : Expr} {ts : List Token} : Expr.Spelled value ts →
      Stmt.Spelled (.returns s value) (.returnWord :: ts)
  | expression {s : Span} {value : Expr} {ts : List Token} : Expr.Spelled value ts → Stmt.Spelled (.expression s value) ts

inductive BodySpelled : List Stmt → List Token → Prop where
  | nil : BodySpelled [] []
  | bare {s : Stmt} {rest : List Stmt} {ts us : List Token} : Stmt.Spelled s ts → BodySpelled rest us →
      BodySpelled (s :: rest) (ts ++ us)
  | closed {s : Stmt} {rest : List Stmt} {ts us : List Token} : Stmt.Spelled s ts → BodySpelled rest us →
      BodySpelled (s :: rest) (ts ++ .semicolon :: us)

inductive ListSpelled : List Expr → List Token → Prop where
  | nil : ListSpelled [] []
  | single {e : Expr} {ts : List Token} : Expr.Spelled e ts → ListSpelled [e] ts
  | cons {e : Expr} {rest : List Expr} {ts us : List Token} : Expr.Spelled e ts → rest ≠ [] → ListSpelled rest us →
      ListSpelled (e :: rest) (ts ++ .comma :: us)

inductive PairsSpelled : List (Expr × Expr) → List Token → Prop where
  | nil : PairsSpelled [] []
  | single {key value : Expr} {ts us : List Token} : Expr.Spelled key ts → Expr.Spelled value us →
      PairsSpelled [(key, value)] (ts ++ .colon :: us)
  | cons {key value : Expr} {rest : List (Expr × Expr)} {ts us vs : List Token} : Expr.Spelled key ts →
      Expr.Spelled value us → rest ≠ [] → PairsSpelled rest vs →
      PairsSpelled ((key, value) :: rest) (ts ++ .colon :: (us ++ .comma :: vs))

end

def Program.Spelled (p : Program) (ts : List Token) : Prop := BodySpelled p.statements ts

theorem Expr.Spelled.ne_nil {e : Expr} {ts : List Token} (spelled : e.Spelled ts) : ts ≠ [] := by
  cases spelled <;> simp

theorem Stmt.Spelled.ne_nil {s : Stmt} {ts : List Token} (spelled : s.Spelled ts) : ts ≠ [] := by
  cases spelled with
  | expression value => exact value.ne_nil
  | _ => simp

theorem Expr.Spelled.behind {e : Expr} {us : List Token} (spelled : e.Spelled us) (ts : List Token) :
    (ts ++ us).getLast? = us.getLast? := by
  rw [List.getLast?_append, Option.or_of_isSome (List.getLast?_isSome.mpr spelled.ne_nil)]

-- A semicolon belongs to no expression, and to no statement that it closes.
theorem Expr.Spelled.last {e : Expr} {ts : List Token} (spelled : e.Spelled ts) : ts.getLast? ≠ some .semicolon := by
  cases spelled with
  | bang inner => exact inner.behind [.bang] ▸ inner.last
  | minus inner => exact inner.behind [.minus] ▸ inner.last
  | binary _ _ inner =>
    rw [List.append_cons, inner.behind]
    exact inner.last
  | _ => simp [List.getLast?_append, List.getLast?_cons]

theorem Stmt.Spelled.last {s : Stmt} {ts : List Token} (spelled : s.Spelled ts) : ts.getLast? ≠ some .semicolon := by
  cases spelled with
  | declare inner => exact inner.behind [_, _, _] ▸ inner.last
  | assign inner => exact inner.behind [_, _] ▸ inner.last
  | returns inner => exact inner.behind [_] ▸ inner.last
  | expression inner => exact inner.last

theorem PairsSpelled.of_nil {ts : List Token} (spelled : PairsSpelled [] ts) : ts = [] := by
  cases spelled
  rfl

theorem parameterTokens_cons {name : String} {rest : List String} (more : rest ≠ []) :
    parameterTokens (name :: rest) = .identifier name :: .comma :: parameterTokens rest := by
  obtain ⟨next, others, rfl⟩ := List.exists_cons_of_ne_nil more
  simp [parameterTokens]

end StackScript
