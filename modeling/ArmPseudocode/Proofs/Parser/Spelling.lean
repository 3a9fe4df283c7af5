import ArmPseudocode.Proofs.Parser.Replay
import ArmPseudocode.Proofs.Syntax.Statements
import ArmPseudocode.Parser.Stmt

/-!
# How accepted programs are spelled

The grammar of the statements that are accepted. More is accepted than the tokens of a tree, since
several texts are read as one tree: the arms of a case may stand without block markers, and behind
an `otherwise`; the semicolon behind an enumeration may be missing. So the grammar relates tokens to
the tree they are read as, in front of a token: where something may follow, what does not follow is
part of the rule.

Expressions are spelled as they are read; that does not depend on the text around them.
-/

namespace ArmPseudocode

namespace Expr

/-- In front of the token the tokens of the expression are read as the expression. -/
def StandsBefore (e : Expr Unit) (k : TokenKind) : Prop :=
  Parse.ReadAs Parse.expr erase e.tokens k e

/-- The same of expressions with commas between them. -/
def StandBefore (es : List (Expr Unit)) (k : TokenKind) : Prop :=
  Parse.ReadAs (fun bound => Parse.commaSeparated (Parse.expr bound) bound) (List.map erase)
    (commas (es.map tokens)) k es

/-- The same of the patterns of an arm. -/
def StandAsPatterns (es : List (Expr Unit)) (k : TokenKind) : Prop :=
  Parse.ReadAs Parse.patterns (List.map erase) (commas (es.map tokens)) k es

end Expr

namespace Stmt

/-- The statements without a body. One that begins with an expression does not begin with the word
that begins a branch. -/
inductive Plain : Stmt Unit → Prop
  | assign {target value : Expr Unit} (htarget : target.StandsBefore (.fixed .assign))
      (hstart : target.tokens.head? ≠ some (.fixed .kwIf))
      (hvalue : value.StandsBefore (.fixed .semicolon)) : Plain (.assign () target value)
  | expr {e : Expr Unit} (he : e.StandsBefore (.fixed .semicolon))
      (hstart : e.tokens.head? ≠ some (.fixed .kwIf)) (hplain : e.isDeclaration = false) :
      Plain (.expr () e)
  | declaration {e : Expr Unit} (he : e.StandsBefore (.fixed .semicolon))
      (hstart : e.tokens.head? ≠ some (.fixed .kwIf)) (hdeclaration : e.isDeclaration = true) :
      Plain (.declaration () e)
  | giveBack {values : List (Expr Unit)}
      (hvalues : values ≠ [] → Expr.StandBefore values (.fixed .semicolon)) :
      Plain (.giveBack () values)
  | undefined : Plain (.undefined ())
  | unpredictable : Plain (.unpredictable ())
  | prose (word : ProseWord) (about : String) : Plain (.prose () word about)
  | assertion {e : Expr Unit} (he : e.StandsBefore (.fixed .semicolon)) : Plain (.assertion () e)
  | enumeration (id : String) (values : List String) : Plain (.enumeration () id values)

end Stmt

/-- What a rule of the grammar is about. -/
inductive Phrase where
  | stmt (s : Stmt Unit)
  | list (ss : List (Stmt Unit))
  /-- The guarded bodies of a branch, the first one apart. -/
  | elsifs (others : List (Expr Unit × Stmt Unit))
  /-- The last body of a branch. -/
  | last (otherwise : Option (Stmt Unit))
  | armBody (b : Stmt Unit)
  /-- The rest of a case, behind the last body met so far. -/
  | arms (met : Option (Stmt Unit)) (arms : List (List (Expr Unit) × Stmt Unit))
      (otherwise : Option (Stmt Unit))

open ParseStmt (endsArm) in
/-- The tokens are read as the phrase in front of the token. -/
inductive Spells : List TokenKind → TokenKind → Phrase → Prop
  | plain {s : Stmt Unit} {k : TokenKind} (hs : s.Plain) : Spells s.tokens k (.stmt s)
  | enumeration (id : String) (values : List String) {k : TokenKind}
      (hk : k ≠ .fixed .semicolon) :
      Spells (.fixed .kwEnumeration :: .name id :: .fixed .openBrace ::
        (commas (values.map fun value => [.name value]) ++ [.fixed .closeBrace])) k
        (.stmt (.enumeration () id values))
  | branch {test : Expr Unit} {body : Stmt Unit} {others : List (Expr Unit × Stmt Unit)}
      {otherwise : Option (Stmt Unit)} {bs es ls : List TokenKind} {k : TokenKind}
      (htest : test.StandsBefore (.fixed .kwThen))
      (hbody : Spells bs ((es ++ ls).headD k) (.stmt body))
      (hothers : Spells es (ls.headD k) (.elsifs others)) (hlast : Spells ls k (.last otherwise)) :
      Spells (.fixed .kwIf :: (test.tokens ++ .fixed .kwThen :: (bs ++ (es ++ ls)))) k
        (.stmt (.branch () test body others otherwise))
  | repeatUntil {body : Stmt Unit} {test : Expr Unit} {bs : List TokenKind} {k : TokenKind}
      (hbody : Spells bs (.fixed .kwUntil) (.stmt body))
      (htest : test.StandsBefore (.fixed .semicolon)) :
      Spells (.fixed .kwRepeat :: (bs ++ .fixed .kwUntil :: (test.tokens ++ [.fixed .semicolon])))
        k (.stmt (.repeatUntil () body test))
  | whileDo {test : Expr Unit} {body : Stmt Unit} {bs : List TokenKind} {k : TokenKind}
      (htest : test.StandsBefore (.fixed .kwDo)) (hbody : Spells bs k (.stmt body)) :
      Spells (.fixed .kwWhile :: (test.tokens ++ .fixed .kwDo :: bs)) k
        (.stmt (.whileDo () test body))
  | forTo (var : String) {first last : Expr Unit} {body : Stmt Unit} {bs : List TokenKind}
      {k : TokenKind} (hfirst : first.StandsBefore (.fixed .kwTo))
      (hlast : last.StandsBefore (.fixed .kwDo)) (hbody : Spells bs k (.stmt body)) :
      Spells (.fixed .kwFor :: .name var :: .fixed .assign ::
        (first.tokens ++ .fixed .kwTo :: (last.tokens ++ .fixed .kwDo :: bs))) k
        (.stmt (.forTo () var first last body))
  | caseOf {selector : Expr Unit} {arms : List (List (Expr Unit) × Stmt Unit)}
      {otherwise : Option (Stmt Unit)} {as : List TokenKind} {k : TokenKind}
      (hselector : selector.StandsBefore (.fixed .kwOf))
      (harms : Spells as k (.arms none arms otherwise)) :
      Spells (.fixed .kwCase :: (selector.tokens ++ .fixed .kwOf :: .indent :: as)) k
        (.stmt (.caseOf () selector arms otherwise))
  | block {ss : List (Stmt Unit)} {bs : List TokenKind} {k : TokenKind}
      (hbody : Spells bs .unindent (.list ss)) :
      Spells (.indent :: (bs ++ [.unindent])) k (.stmt (.block () ss))
  | nil {k : TokenKind} : Spells [] k (.list [])
  | cons {s : Stmt Unit} {ss : List (Stmt Unit)} {ks ks' : List TokenKind} {k : TokenKind}
      (hs : Spells ks (ks'.headD k) (.stmt s)) (hss : Spells ks' k (.list ss)) :
      Spells (ks ++ ks') k (.list (s :: ss))
  | noElsif {k : TokenKind} (hk : k ≠ .fixed .kwElsif) : Spells [] k (.elsifs [])
  | elsif {test : Expr Unit} {body : Stmt Unit} {others : List (Expr Unit × Stmt Unit)}
      {bs es : List TokenKind} {k : TokenKind} (htest : test.StandsBefore (.fixed .kwThen))
      (hbody : Spells bs (es.headD k) (.stmt body)) (hothers : Spells es k (.elsifs others)) :
      Spells (.fixed .kwElsif :: (test.tokens ++ .fixed .kwThen :: (bs ++ es))) k
        (.elsifs ((test, body) :: others))
  | noLast {k : TokenKind} (hk : k ≠ .fixed .kwElse) : Spells [] k (.last none)
  | lastBody {body : Stmt Unit} {bs : List TokenKind} {k : TokenKind}
      (hbody : Spells bs k (.stmt body)) : Spells (.fixed .kwElse :: bs) k (.last (some body))
  | armBlock {ss : List (Stmt Unit)} {bs : List TokenKind} {k : TokenKind}
      (hbody : Spells bs .unindent (.list ss)) :
      Spells (.indent :: (bs ++ [.unindent])) k (.armBody (.block () ss))
  | armList {ss : List (Stmt Unit)} {bs : List TokenKind} {k : TokenKind}
      (hbody : Spells bs k (.list ss)) (hstart : bs.head? ≠ some .indent)
      (hk : endsArm k = true) : Spells bs k (.armBody (.block () ss))
  | endOfCase (met : Option (Stmt Unit)) {k : TokenKind} : Spells [.unindent] k (.arms met [] met)
  | arm {met otherwise : Option (Stmt Unit)} {patterns : List (Expr Unit)} {body : Stmt Unit}
      {arms : List (List (Expr Unit) × Stmt Unit)} {bs as : List TokenKind} {k : TokenKind}
      (hpatterns : Expr.StandAsPatterns patterns ((bs ++ as).headD k))
      (hbody : Spells bs (as.headD k) (.armBody body))
      (harms : Spells as k (.arms met arms otherwise)) :
      Spells (.fixed .kwWhen :: (commas (patterns.map Expr.tokens) ++ (bs ++ as))) k
        (.arms met ((patterns, body) :: arms) otherwise)
  | lastArm {met otherwise : Option (Stmt Unit)} {body : Stmt Unit}
      {arms : List (List (Expr Unit) × Stmt Unit)} {bs as : List TokenKind} {k : TokenKind}
      (hbody : Spells bs (as.headD k) (.armBody body))
      (harms : Spells as k (.arms (some body) arms otherwise)) :
      Spells (.fixed .kwOtherwise :: (bs ++ as)) k (.arms met arms otherwise)

end ArmPseudocode
