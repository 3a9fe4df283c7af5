import ArmPseudocode.Parser.Expr

/-!
# How trees are written

The tokens of an expression or a type, in order. Parentheses stand only where the tree has a tuple,
so whether the tokens can be read back as the same tree depends on which operand stands where; the
grammatical trees are those a reader can arrive at.
-/

namespace ArmPseudocode

namespace BinaryOp

/-- The token that writes the operator. -/
def token : BinaryOp → FixedToken
  | equal => .equal
  | notEqual => .notEqual
  | less => .less
  | lessEqual => .lessEqual
  | greater => .greater
  | greaterEqual => .greaterEqual
  | andAlso => .andAnd
  | orElse => .orOr
  | bitAnd => .kwAnd
  | bitOr => .kwOr
  | bitEor => .kwEor
  | concat => .colon
  | add => .plus
  | sub => .minus
  | mul => .star
  | divide => .slash
  | div => .kwDiv
  | mod => .kwMod
  | shiftLeft => .shiftLeft
  | shiftRight => .shiftRight

theorem precedence_pos (op : BinaryOp) : 0 < op.precedence := by
  cases op <;> decide

theorem precedence_le_loosest (op : BinaryOp) : op.precedence ≤ loosest := by
  cases op <;> decide

@[simp] theorem binaryOp?_token (op : BinaryOp) : Parse.binaryOp? (.fixed op.token) = some op := by
  cases op <;> rfl

theorem eq_token_of_binaryOp? {kind : TokenKind} {op : BinaryOp}
    (h : Parse.binaryOp? kind = some op) : kind = .fixed op.token := by
  unfold Parse.binaryOp? at h
  split at h <;> cases h <;> rfl

end BinaryOp

namespace UnaryOp

/-- The token that writes the operator. -/
def token : UnaryOp → FixedToken
  | not => .bang
  | plus => .plus
  | neg => .minus
  | twoPow => .twoPow

@[simp] theorem unaryOp?_token (op : UnaryOp) : Parse.unaryOp? (.fixed op.token) = some op := by
  cases op <;> rfl

theorem eq_token_of_unaryOp? {kind : TokenKind} {op : UnaryOp}
    (h : Parse.unaryOp? kind = some op) : kind = .fixed op.token := by
  unfold Parse.unaryOp? at h
  split at h <;> cases h <;> rfl

end UnaryOp

/-- Lists of tokens with commas between them. -/
def commas (parts : List (List TokenKind)) : List TokenKind :=
  [.fixed .comma].intercalate parts

theorem commas_cons (part : List TokenKind) (parts : List (List TokenKind)) :
    commas (part :: parts) = part ++ parts.flatMap (.fixed .comma :: ·) := by
  induction parts generalizing part with
  | nil => simp [commas]
  | cons next parts ih =>
      have hrest : commas (part :: next :: parts) =
          part ++ [.fixed .comma] ++ commas (next :: parts) := by
        rw [commas, List.intercalate_cons_cons, commas]
      rw [hrest, ih, List.flatMap_cons]
      simp

variable {α : Type}

mutual

/-- The tokens of an expression. -/
@[simp] def Expr.tokens : Expr α → List TokenKind
  | .int _ n => [.int n]
  | .real _ numeral => [.real numeral]
  | .bitString _ digits => [.bitString digits]
  | .name _ id => [.name id]
  | .declare _ type id => type.tokens ++ [.name id]
  | .unknown _ none => [.fixed .kwUnknown]
  | .unknown _ (some type) => type.tokens ++ [.fixed .kwUnknown]
  | .call _ callee args => .call callee :: (commas (Expr.tokensEach args) ++ [.fixed .closeParen])
  | .tuple _ items =>
    .fixed .openParen :: (commas (Expr.tokensEach items) ++ [.fixed .closeParen])
  | .blank _ => [.fixed .minus]
  | .binary _ op left right => left.tokens ++ .fixed op.token :: right.tokens
  | .unary _ op operand => .fixed op.token :: operand.tokens
  | .slice _ base terms =>
    base.tokens ++ .fixed .openAngle :: (commas (Expr.tokensTerms terms) ++ [.fixed .closeAngle])
  | .index _ base terms =>
    base.tokens ++
      .fixed .openBracket :: (commas (Expr.tokensTerms terms) ++ [.fixed .closeBracket])
  | .conditional _ test yes no =>
    .fixed .kwIf :: (test.tokens ++
      .fixed .kwThen :: (yes.tokens ++ .fixed .kwElse :: no.tokens))
  | .member _ base field => base.tokens ++ [.fixed .dot, .name field]
  | .malformed _ => [.error]
termination_by structural e => e

def Expr.tokensEach : List (Expr α) → List (List TokenKind)
  | [] => []
  | e :: es => e.tokens :: Expr.tokensEach es
termination_by structural es => es

def Expr.tokensTerms : List (SliceTerm (Expr α)) → List (List TokenKind)
  | [] => []
  | .single position :: terms => position.tokens :: Expr.tokensTerms terms
  | .range high low :: terms =>
    (high.tokens ++ .fixed .colon :: low.tokens) :: Expr.tokensTerms terms
termination_by structural terms => terms

/-- The tokens of a type. -/
@[simp] def TypeExpr.tokens : TypeExpr α → List TokenKind
  | .boolean => [.fixed .kwBoolean]
  | .bit => [.fixed .kwBit]
  | .integer => [.fixed .kwInteger]
  | .bits width => .fixed .kwBits :: (width.tokens ++ [.fixed .closeParen])
  | .named id => [.name id]
  | .tuple items =>
    .fixed .openParen :: (commas (TypeExpr.tokensEach items) ++ [.fixed .closeParen])
termination_by structural type => type

def TypeExpr.tokensEach : List (TypeExpr α) → List (List TokenKind)
  | [] => []
  | type :: types => type.tokens :: TypeExpr.tokensEach types
termination_by structural types => types

end

@[simp] def SliceTerm.tokens : SliceTerm (Expr α) → List TokenKind
  | .single position => position.tokens
  | .range high low => high.tokens ++ .fixed .colon :: low.tokens

@[simp] theorem Expr.tokensEach_eq_map (es : List (Expr α)) :
    Expr.tokensEach es = es.map Expr.tokens := by
  induction es with
  | nil => rfl
  | cons e es ih => simp only [Expr.tokensEach, ih, List.map_cons]

@[simp] theorem Expr.tokensTerms_eq_map (terms : List (SliceTerm (Expr α))) :
    Expr.tokensTerms terms = terms.map SliceTerm.tokens := by
  induction terms with
  | nil => rfl
  | cons term terms ih =>
      cases term <;> simp only [Expr.tokensTerms, ih, List.map_cons, SliceTerm.tokens]

@[simp] theorem TypeExpr.tokensEach_eq_map (types : List (TypeExpr α)) :
    TypeExpr.tokensEach types = types.map TypeExpr.tokens := by
  induction types with
  | nil => rfl
  | cons type types ih => simp only [TypeExpr.tokensEach, ih, List.map_cons]

/-! ### Trees a reader can arrive at -/

/-- How trees are to be read. -/
structure Style where
  /-- As patterns of a case arm, where two identifiers in a row declare nothing. -/
  inPattern : Bool
  /-- With every conditional that is an operand, a base or a bound in parentheses. -/
  closedConditionals : Bool

namespace TypeExpr

/-- Whether the type is one of the words, with its width in the case of `bits`. -/
def isWord : TypeExpr α → Bool
  | boolean | bit | integer | bits _ => true
  | named _ | tuple _ => false

/-- Whether an expression can begin with the type: with a word, or with a word behind a
parenthesis. -/
def canLead : TypeExpr α → Bool
  | tuple (first :: _) => first.isWord
  | type => type.isWord

end TypeExpr

namespace SliceTerm

def bounds {ε : Type} : SliceTerm ε → List ε
  | single index => [index]
  | range high low => [high, low]

end SliceTerm

namespace Expr

/-- The level of the outermost operator, and zero if there is no binary one. -/
def level : Expr α → Nat
  | binary _ op _ _ => op.precedence
  | _ => 0

def isConditional : Expr α → Bool
  | conditional _ _ _ _ => true
  | _ => false

/-- Whether a suffix can follow: neither a binary nor a prefix operator is outermost. -/
def isBase : Expr α → Bool
  | binary _ _ _ _ | unary _ _ _ => false
  | _ => true

/-- An operand of at most a level, with its parentheses if the style wants them. -/
structure IsOperand (style : Style) (level : Nat) (e : Expr α) : Prop where
  level_le : e.level ≤ level
  closed : style.closedConditionals = true → e.isConditional = false

/-- Something a suffix can follow, with its parentheses if the style wants them. -/
structure CanTakeSuffix (style : Style) (e : Expr α) : Prop where
  isBase : e.isBase = true
  closed : style.closedConditionals = true → e.isConditional = false

/-- The first token is not one that begins a type. -/
def BeginsNoType (e : Expr α) : Prop :=
  ∀ kind ∈ e.tokens.head?, Parse.beginsType kind = false

end Expr

mutual

/-- Trees whose tokens group as the tree does. Operands are no looser than their place allows, a
blank stands only in a tuple, and what begins like a type is one. -/
inductive Expr.Grammatical (style : Style) : Expr α → Prop
  | int (info : α) (n : Int64) : Expr.Grammatical style (.int info n)
  | real (info : α) (numeral : String) : Expr.Grammatical style (.real info numeral)
  | bitString (info : α) (digits : String) : Expr.Grammatical style (.bitString info digits)
  | name (info : α) (id : String) : Expr.Grammatical style (.name info id)
  | declare (info : α) {type : TypeExpr α} (id : String) (hlead : type.canLead = true)
      (htype : type.Grammatical style) : Expr.Grammatical style (.declare info type id)
  | declareNamed (info : α) (type id : String) (hplace : style.inPattern = false) :
      Expr.Grammatical style (.declare info (.named type) id)
  | unknown (info : α) : Expr.Grammatical style (.unknown info none)
  | unknownOf (info : α) {type : TypeExpr α} (hlead : type.canLead = true)
      (htype : type.Grammatical style) : Expr.Grammatical style (.unknown info (some type))
  | call (info : α) (callee : String) {args : List (Expr α)}
      (hargs : ∀ e ∈ args, e.Grammatical style) : Expr.Grammatical style (.call info callee args)
  | tuple (info : α) {items : List (Expr α)} (hsome : items ≠ [])
      (hfirst : ∀ e ∈ items.head?, e.BeginsNoType)
      (hitems : ∀ e ∈ items, e.isBlank = false → e.Grammatical style) :
      Expr.Grammatical style (.tuple info items)
  | binary (info : α) (op : BinaryOp) {left right : Expr α}
      (hleft : left.IsOperand style op.precedence)
      (hright : right.IsOperand style (op.precedence - 1))
      (left_grammatical : left.Grammatical style) (right_grammatical : right.Grammatical style) :
      Expr.Grammatical style (.binary info op left right)
  | unary (info : α) (op : UnaryOp) {operand : Expr α} (hoperand : operand.IsOperand style 0)
      (operand_grammatical : operand.Grammatical style) :
      Expr.Grammatical style (.unary info op operand)
  | slice (info : α) {base : Expr α} {terms : List (SliceTerm (Expr α))}
      (hbase : base.CanTakeSuffix style) (base_grammatical : base.Grammatical style)
      (hsome : terms ≠ [])
      (hbounds : ∀ term ∈ terms, ∀ e ∈ term.bounds, e.IsOperand style BinaryOp.boundLevel)
      (bounds_grammatical : ∀ term ∈ terms, ∀ e ∈ term.bounds, e.Grammatical style) :
      Expr.Grammatical style (.slice info base terms)
  | index (info : α) {base : Expr α} {terms : List (SliceTerm (Expr α))}
      (hbase : base.CanTakeSuffix style) (base_grammatical : base.Grammatical style)
      (hsome : terms ≠ [])
      (hbounds : ∀ term ∈ terms, ∀ e ∈ term.bounds, e.IsOperand style BinaryOp.boundLevel)
      (bounds_grammatical : ∀ term ∈ terms, ∀ e ∈ term.bounds, e.Grammatical style) :
      Expr.Grammatical style (.index info base terms)
  | conditional (info : α) {test yes no : Expr α} (htest : test.Grammatical style)
      (hyes : yes.Grammatical style) (hno : no.Grammatical style) :
      Expr.Grammatical style (.conditional info test yes no)
  | member (info : α) {base : Expr α} (field : String) (hbase : base.CanTakeSuffix style)
      (base_grammatical : base.Grammatical style) : Expr.Grammatical style (.member info base field)
  | malformed (info : α) : Expr.Grammatical style (.malformed info)

/-- Types with a list in every pair of parentheses and readable widths. -/
inductive TypeExpr.Grammatical (style : Style) : TypeExpr α → Prop
  | boolean : TypeExpr.Grammatical style .boolean
  | bit : TypeExpr.Grammatical style .bit
  | integer : TypeExpr.Grammatical style .integer
  | bits {width : Expr α} (hwidth : width.Grammatical style) :
      TypeExpr.Grammatical style (.bits width)
  | named (id : String) : TypeExpr.Grammatical style (.named id)
  | tuple {items : List (TypeExpr α)} (hsome : items ≠ [])
      (hitems : ∀ type ∈ items, type.Grammatical style) : TypeExpr.Grammatical style (.tuple items)

end

/-! ### First tokens -/

/-- The tokens that an expression can begin with. -/
def TokenKind.beginsExpr : TokenKind → Bool
  | .int _ | .real _ | .bitString _ | .name _ | .call _ | .error => true
  | .fixed .openParen | .fixed .kwBits | .fixed .kwBit | .fixed .kwInteger | .fixed .kwBoolean
  | .fixed .kwUnknown | .fixed .kwIf | .fixed .bang | .fixed .minus | .fixed .plus
  | .fixed .twoPow => true
  | _ => false

theorem UnaryOp.beginsExpr_token (op : UnaryOp) : (TokenKind.fixed op.token).beginsExpr = true := by
  cases op <;> rfl

/-- A type that can lead begins with a token that begins a type, or with a parenthesis before
one. -/
theorem TypeExpr.tokens_of_canLead {type : TypeExpr α} (hlead : type.canLead = true) :
    ∃ k rest, type.tokens = k :: rest ∧ (Parse.beginsType k = true ∨
      k = .fixed .openParen ∧ ∃ k' rest', rest = k' :: rest' ∧ Parse.beginsType k' = true) := by
  cases type with
  | named id => nomatch hlead
  | tuple items =>
      cases items with
      | nil => nomatch hlead
      | cons first items =>
          refine ⟨_, _, rfl, .inr ⟨rfl, ?_⟩⟩
          rw [TypeExpr.tokensEach_eq_map, List.map_cons, commas_cons]
          cases first with
          | named id => nomatch hlead
          | tuple items => nomatch hlead
          | bits width => exact ⟨_, _, rfl, rfl⟩
          | _ => exact ⟨_, _, rfl, rfl⟩
  | bits width => exact ⟨_, _, rfl, .inl rfl⟩
  | _ => exact ⟨_, _, rfl, .inl rfl⟩

theorem TypeExpr.beginsExpr_of_canLead {type : TypeExpr α} (hlead : type.canLead = true) :
    ∃ k rest, type.tokens = k :: rest ∧ k.beginsExpr = true := by
  obtain ⟨k, rest, htokens, hk | ⟨rfl, -⟩⟩ := tokens_of_canLead hlead
  · refine ⟨k, rest, htokens, ?_⟩
    unfold Parse.beginsType at hk
    split at hk
    · rfl
    · rfl
    · rfl
    · rfl
    · nomatch hk
  · exact ⟨_, rest, htokens, rfl⟩

theorem Expr.tokens_eq_cons {style : Style} {e : Expr α} (he : e.Grammatical style) :
    ∃ k rest, e.tokens = k :: rest ∧ k.beginsExpr = true := by
  cases he with
  | declare _ id hlead =>
      obtain ⟨k, rest, htokens, hk⟩ := TypeExpr.beginsExpr_of_canLead hlead
      exact ⟨k, rest ++ [.name id], by rw [tokens, htokens]; rfl, hk⟩
  | unknownOf _ hlead =>
      obtain ⟨k, rest, htokens, hk⟩ := TypeExpr.beginsExpr_of_canLead hlead
      exact ⟨k, rest ++ [.fixed .kwUnknown], by rw [tokens, htokens]; rfl, hk⟩
  | binary _ op _ _ hleft =>
      obtain ⟨k, rest, htokens, hk⟩ := tokens_eq_cons hleft
      exact ⟨k, _, by rw [tokens, htokens, List.cons_append], hk⟩
  | unary _ op => exact ⟨_, _, rfl, op.beginsExpr_token⟩
  | slice _ _ hbase | index _ _ hbase | member _ _ _ hbase =>
      obtain ⟨k, rest, htokens, hk⟩ := tokens_eq_cons hbase
      exact ⟨k, _, by rw [tokens, htokens, List.cons_append], hk⟩
  | _ => exact ⟨_, _, rfl, rfl⟩

/-! ### Tokens inside expressions -/

/-- The tokens that an expression can consist of. -/
def TokenKind.insideExpr : TokenKind → Bool
  | .indent | .unindent | .prose _ _ | .eof => false
  | .fixed token =>
    match token with
    | .kwReturn | .kwUndefined | .kwUnpredictable | .kwElsif | .kwRepeat | .kwUntil | .kwWhile
    | .kwDo | .kwFor | .kwTo | .kwCase | .kwOf | .kwWhen | .kwOtherwise | .kwEnumeration
    | .kwAssert | .openBrace | .closeBrace | .semicolon | .assign => false
    | _ => true
  | _ => true

theorem forall_mem_commas {P : TokenKind → Prop} {parts : List (List TokenKind)}
    (hcomma : P (.fixed .comma)) (hparts : ∀ part ∈ parts, ∀ k ∈ part, P k) :
    ∀ k ∈ commas parts, P k := by
  cases parts with
  | nil => simp [commas]
  | cons part parts =>
      rw [List.forall_mem_cons] at hparts
      rw [commas_cons, List.forall_mem_append]
      refine ⟨hparts.1, fun k hk => ?_⟩
      obtain ⟨other, hmem, hk⟩ := List.mem_flatMap.mp hk
      obtain rfl | hk := List.mem_cons.mp hk
      · exact hcomma
      · exact hparts.2 other hmem k hk

theorem BinaryOp.insideExpr_token (op : BinaryOp) :
    (TokenKind.fixed op.token).insideExpr = true := by
  cases op <;> rfl

theorem UnaryOp.insideExpr_token (op : UnaryOp) :
    (TokenKind.fixed op.token).insideExpr = true := by
  cases op <;> rfl

mutual

theorem Expr.insideExpr_of_mem_tokens (e : Expr α) : ∀ k ∈ e.tokens, k.insideExpr = true := by
  cases e with
  | declare info type id =>
      rw [Expr.tokens, List.forall_mem_append]
      exact ⟨type.insideExpr_of_mem_tokens, List.forall_mem_singleton.mpr rfl⟩
  | unknown info type =>
      cases type with
      | none => exact List.forall_mem_singleton.mpr rfl
      | some type =>
          rw [Expr.tokens, List.forall_mem_append]
          exact ⟨type.insideExpr_of_mem_tokens, List.forall_mem_singleton.mpr rfl⟩
  | call info callee args =>
      rw [Expr.tokens, List.forall_mem_cons, List.forall_mem_append]
      exact ⟨rfl, forall_mem_commas rfl (Expr.insideExpr_of_mem_tokensEach args),
        List.forall_mem_singleton.mpr rfl⟩
  | tuple info items =>
      rw [Expr.tokens, List.forall_mem_cons, List.forall_mem_append]
      exact ⟨rfl, forall_mem_commas rfl (Expr.insideExpr_of_mem_tokensEach items),
        List.forall_mem_singleton.mpr rfl⟩
  | binary info op left right =>
      rw [Expr.tokens, List.forall_mem_append, List.forall_mem_cons]
      exact ⟨left.insideExpr_of_mem_tokens, op.insideExpr_token, right.insideExpr_of_mem_tokens⟩
  | unary info op operand =>
      rw [Expr.tokens, List.forall_mem_cons]
      exact ⟨op.insideExpr_token, operand.insideExpr_of_mem_tokens⟩
  | slice info base terms | index info base terms =>
      rw [Expr.tokens, List.forall_mem_append, List.forall_mem_cons, List.forall_mem_append]
      exact ⟨base.insideExpr_of_mem_tokens, rfl,
        forall_mem_commas rfl (Expr.insideExpr_of_mem_tokensTerms terms),
        List.forall_mem_singleton.mpr rfl⟩
  | conditional info test yes no =>
      rw [Expr.tokens, List.forall_mem_cons, List.forall_mem_append, List.forall_mem_cons,
        List.forall_mem_append, List.forall_mem_cons]
      exact ⟨rfl, test.insideExpr_of_mem_tokens, rfl, yes.insideExpr_of_mem_tokens, rfl,
        no.insideExpr_of_mem_tokens⟩
  | member info base field =>
      rw [Expr.tokens, List.forall_mem_append, List.forall_mem_cons]
      exact ⟨base.insideExpr_of_mem_tokens, rfl, List.forall_mem_singleton.mpr rfl⟩
  | _ => exact List.forall_mem_singleton.mpr rfl
termination_by structural e

theorem Expr.insideExpr_of_mem_tokensEach (es : List (Expr α)) :
    ∀ part ∈ Expr.tokensEach es, ∀ k ∈ part, k.insideExpr = true := by
  cases es with
  | nil => nofun
  | cons e es =>
      rw [Expr.tokensEach, List.forall_mem_cons]
      exact ⟨e.insideExpr_of_mem_tokens, Expr.insideExpr_of_mem_tokensEach es⟩
termination_by structural es

theorem Expr.insideExpr_of_mem_tokensTerms (terms : List (SliceTerm (Expr α))) :
    ∀ part ∈ Expr.tokensTerms terms, ∀ k ∈ part, k.insideExpr = true := by
  cases terms with
  | nil => nofun
  | cons term terms =>
      cases term with
      | single position =>
          rw [Expr.tokensTerms, List.forall_mem_cons]
          exact ⟨position.insideExpr_of_mem_tokens, Expr.insideExpr_of_mem_tokensTerms terms⟩
      | range high low =>
          rw [Expr.tokensTerms, List.forall_mem_cons, List.forall_mem_append, List.forall_mem_cons]
          exact ⟨⟨high.insideExpr_of_mem_tokens, rfl, low.insideExpr_of_mem_tokens⟩,
            Expr.insideExpr_of_mem_tokensTerms terms⟩
termination_by structural terms

theorem TypeExpr.insideExpr_of_mem_tokens (type : TypeExpr α) :
    ∀ k ∈ type.tokens, k.insideExpr = true := by
  cases type with
  | bits width =>
      rw [TypeExpr.tokens, List.forall_mem_cons, List.forall_mem_append]
      exact ⟨rfl, width.insideExpr_of_mem_tokens, List.forall_mem_singleton.mpr rfl⟩
  | tuple items =>
      rw [TypeExpr.tokens, List.forall_mem_cons, List.forall_mem_append]
      exact ⟨rfl, forall_mem_commas rfl (TypeExpr.insideExpr_of_mem_tokensEach items),
        List.forall_mem_singleton.mpr rfl⟩
  | _ => exact List.forall_mem_singleton.mpr rfl
termination_by structural type

theorem TypeExpr.insideExpr_of_mem_tokensEach (types : List (TypeExpr α)) :
    ∀ part ∈ TypeExpr.tokensEach types, ∀ k ∈ part, k.insideExpr = true := by
  cases types with
  | nil => nofun
  | cons type types =>
      rw [TypeExpr.tokensEach, List.forall_mem_cons]
      exact ⟨type.insideExpr_of_mem_tokens, TypeExpr.insideExpr_of_mem_tokensEach types⟩
termination_by structural types

end

theorem Expr.insideExpr_of_mem_commas (es : List (Expr α)) :
    ∀ k ∈ commas (es.map Expr.tokens), k.insideExpr = true := by
  rw [← Expr.tokensEach_eq_map]
  exact forall_mem_commas rfl (Expr.insideExpr_of_mem_tokensEach es)

theorem TokenKind.insideExpr_of_mem_names (values : List String) :
    ∀ k ∈ commas (values.map fun value => [.name value]), k.insideExpr = true := by
  refine forall_mem_commas rfl fun part hpart => ?_
  obtain ⟨value, -, rfl⟩ := List.mem_map.mp hpart
  exact List.forall_mem_singleton.mpr rfl

end ArmPseudocode
