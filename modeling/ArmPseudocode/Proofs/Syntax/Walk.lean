import ArmPseudocode.Proofs.Syntax.Tokens

/-!
# Parts of expressions

An expression with everything inside it. The tokens of a part are a segment of the tokens of the
whole, and what a grammatical tree is made of is grammatical, blanks apart.
-/

namespace ArmPseudocode

variable {α : Type}

mutual

def Expr.walk : Expr α → List (Expr α)
  | e@(.declare _ type _) => e :: type.walk
  | e@(.unknown _ (some type)) => e :: type.walk
  | e@(.call _ _ args) => e :: Expr.walkEach args
  | e@(.tuple _ items) => e :: Expr.walkEach items
  | e@(.binary _ _ left right) => e :: (left.walk ++ right.walk)
  | e@(.unary _ _ operand) => e :: operand.walk
  | e@(.slice _ base terms) => e :: (base.walk ++ Expr.walkTerms terms)
  | e@(.index _ base terms) => e :: (base.walk ++ Expr.walkTerms terms)
  | e@(.conditional _ test yes no) => e :: (test.walk ++ yes.walk ++ no.walk)
  | e@(.member _ base _) => e :: base.walk
  | e => [e]
termination_by structural e => e

def Expr.walkEach : List (Expr α) → List (Expr α)
  | [] => []
  | e :: es => e.walk ++ Expr.walkEach es
termination_by structural es => es

def Expr.walkTerms : List (SliceTerm (Expr α)) → List (Expr α)
  | [] => []
  | .single position :: terms => position.walk ++ Expr.walkTerms terms
  | .range high low :: terms => high.walk ++ low.walk ++ Expr.walkTerms terms
termination_by structural terms => terms

/-- The expressions inside a type. -/
def TypeExpr.walk : TypeExpr α → List (Expr α)
  | .bits width => width.walk
  | .tuple items => TypeExpr.walkEach items
  | _ => []
termination_by structural type => type

def TypeExpr.walkEach : List (TypeExpr α) → List (Expr α)
  | [] => []
  | type :: types => type.walk ++ TypeExpr.walkEach types
termination_by structural types => types

end

theorem Expr.walk_eq_cons (e : Expr α) : e.walk = e :: e.walk.tail := by
  cases e with
  | unknown info type => cases type <;> rfl
  | _ => rfl

theorem Expr.walkEach_eq_flatMap (es : List (Expr α)) :
    Expr.walkEach es = es.flatMap Expr.walk := by
  induction es with
  | nil => rfl
  | cons e es ih => rw [Expr.walkEach, ih, List.flatMap_cons]

theorem Expr.walkTerms_eq_flatMap (terms : List (SliceTerm (Expr α))) :
    Expr.walkTerms terms = terms.flatMap fun term => term.bounds.flatMap Expr.walk := by
  induction terms with
  | nil => rfl
  | cons term terms ih =>
      cases term <;> simp [Expr.walkTerms, SliceTerm.bounds, ih]

theorem TypeExpr.walkEach_eq_flatMap (types : List (TypeExpr α)) :
    TypeExpr.walkEach types = types.flatMap TypeExpr.walk := by
  induction types with
  | nil => rfl
  | cons type types ih => rw [TypeExpr.walkEach, ih, List.flatMap_cons]

/-! ### Tokens of parts -/

theorem infix_commas {part : List TokenKind} {parts : List (List TokenKind)} (h : part ∈ parts) :
    part <:+: commas parts := by
  cases parts with
  | nil => nomatch h
  | cons first parts =>
      rw [commas_cons]
      obtain rfl | hmem := List.mem_cons.mp h
      · exact (List.prefix_append part _).isInfix
      · obtain ⟨front, back, rfl⟩ := List.append_of_mem hmem
        refine ⟨first ++ front.flatMap (.fixed .comma :: ·) ++ [.fixed .comma],
          back.flatMap (.fixed .comma :: ·), ?_⟩
        simp

theorem infix_append_left {part front : List TokenKind} (behind : List TokenKind)
    (h : part <:+: front) : part <:+: front ++ behind :=
  h.trans (List.prefix_append front behind).isInfix

theorem infix_append_right {part behind : List TokenKind} (front : List TokenKind)
    (h : part <:+: behind) : part <:+: front ++ behind :=
  h.trans (List.suffix_append front behind).isInfix

theorem infix_cons {part behind : List TokenKind} (k : TokenKind) (h : part <:+: behind) :
    part <:+: k :: behind :=
  h.trans (List.suffix_cons k behind).isInfix

mutual

theorem Expr.tokens_infix_of_mem_walk (e : Expr α) {x : Expr α} (h : x ∈ e.walk) :
    x.tokens <:+: e.tokens := by
  cases e with
  | declare info type id =>
      obtain rfl | h := List.mem_cons.mp h
      · exact List.infix_rfl
      · exact infix_append_left _ (type.tokens_infix_of_mem_walk h)
  | unknown info type =>
      cases type with
      | none =>
          obtain rfl := List.mem_singleton.mp h
          exact List.infix_rfl
      | some type =>
          obtain rfl | h := List.mem_cons.mp h
          · exact List.infix_rfl
          · exact infix_append_left _ (type.tokens_infix_of_mem_walk h)
  | call info callee args =>
      obtain rfl | h := List.mem_cons.mp h
      · exact List.infix_rfl
      · obtain ⟨part, hpart, hx⟩ := Expr.tokensEach_infix_of_mem_walk args h
        exact infix_cons _ (infix_append_left _ (hx.trans (infix_commas hpart)))
  | tuple info items =>
      obtain rfl | h := List.mem_cons.mp h
      · exact List.infix_rfl
      · obtain ⟨part, hpart, hx⟩ := Expr.tokensEach_infix_of_mem_walk items h
        exact infix_cons _ (infix_append_left _ (hx.trans (infix_commas hpart)))
  | binary info op left right =>
      obtain rfl | h := List.mem_cons.mp h
      · exact List.infix_rfl
      · obtain h | h := List.mem_append.mp h
        · exact infix_append_left _ (left.tokens_infix_of_mem_walk h)
        · exact infix_append_right _ (infix_cons _ (right.tokens_infix_of_mem_walk h))
  | unary info op operand =>
      obtain rfl | h := List.mem_cons.mp h
      · exact List.infix_rfl
      · exact infix_cons _ (operand.tokens_infix_of_mem_walk h)
  | slice info base terms | index info base terms =>
      obtain rfl | h := List.mem_cons.mp h
      · exact List.infix_rfl
      · obtain h | h := List.mem_append.mp h
        · exact infix_append_left _ (base.tokens_infix_of_mem_walk h)
        · obtain ⟨part, hpart, hx⟩ := Expr.tokensTerms_infix_of_mem_walk terms h
          exact infix_append_right _
            (infix_cons _ (infix_append_left _ (hx.trans (infix_commas hpart))))
  | conditional info test yes no =>
      obtain rfl | h := List.mem_cons.mp h
      · exact List.infix_rfl
      · obtain h | h := List.mem_append.mp h
        · obtain h | h := List.mem_append.mp h
          · exact infix_cons _ (infix_append_left _ (test.tokens_infix_of_mem_walk h))
          · exact infix_cons _ (infix_append_right _
              (infix_cons _ (infix_append_left _ (yes.tokens_infix_of_mem_walk h))))
        · exact infix_cons _ (infix_append_right _
            (infix_cons _ (infix_append_right _ (infix_cons _ (no.tokens_infix_of_mem_walk h)))))
  | member info base field =>
      obtain rfl | h := List.mem_cons.mp h
      · exact List.infix_rfl
      · exact infix_append_left _ (base.tokens_infix_of_mem_walk h)
  | _ =>
      obtain rfl := List.mem_singleton.mp h
      exact List.infix_rfl
termination_by structural e

theorem Expr.tokensEach_infix_of_mem_walk (es : List (Expr α)) {x : Expr α}
    (h : x ∈ Expr.walkEach es) : ∃ part ∈ Expr.tokensEach es, x.tokens <:+: part := by
  cases es with
  | nil => nomatch h
  | cons e es =>
      obtain h | h := List.mem_append.mp h
      · exact ⟨_, List.mem_cons_self, e.tokens_infix_of_mem_walk h⟩
      · obtain ⟨part, hpart, hx⟩ := Expr.tokensEach_infix_of_mem_walk es h
        exact ⟨part, List.mem_cons_of_mem _ hpart, hx⟩
termination_by structural es

theorem Expr.tokensTerms_infix_of_mem_walk (terms : List (SliceTerm (Expr α))) {x : Expr α}
    (h : x ∈ Expr.walkTerms terms) : ∃ part ∈ Expr.tokensTerms terms, x.tokens <:+: part := by
  cases terms with
  | nil => nomatch h
  | cons term terms =>
      cases term with
      | single position =>
          obtain h | h := List.mem_append.mp h
          · exact ⟨_, List.mem_cons_self, position.tokens_infix_of_mem_walk h⟩
          · obtain ⟨part, hpart, hx⟩ := Expr.tokensTerms_infix_of_mem_walk terms h
            exact ⟨part, List.mem_cons_of_mem _ hpart, hx⟩
      | range high low =>
          obtain h | h := List.mem_append.mp h
          · refine ⟨_, List.mem_cons_self, ?_⟩
            obtain h | h := List.mem_append.mp h
            · exact infix_append_left _ (high.tokens_infix_of_mem_walk h)
            · exact infix_append_right _ (infix_cons _ (low.tokens_infix_of_mem_walk h))
          · obtain ⟨part, hpart, hx⟩ := Expr.tokensTerms_infix_of_mem_walk terms h
            exact ⟨part, List.mem_cons_of_mem _ hpart, hx⟩
termination_by structural terms

theorem TypeExpr.tokens_infix_of_mem_walk (type : TypeExpr α) {x : Expr α} (h : x ∈ type.walk) :
    x.tokens <:+: type.tokens := by
  cases type with
  | bits width => exact infix_cons _ (infix_append_left _ (width.tokens_infix_of_mem_walk h))
  | tuple items =>
      obtain ⟨part, hpart, hx⟩ := TypeExpr.tokensEach_infix_of_mem_walk items h
      exact infix_cons _ (infix_append_left _ (hx.trans (infix_commas hpart)))
  | _ => nomatch h
termination_by structural type

theorem TypeExpr.tokensEach_infix_of_mem_walk (types : List (TypeExpr α)) {x : Expr α}
    (h : x ∈ TypeExpr.walkEach types) : ∃ part ∈ TypeExpr.tokensEach types, x.tokens <:+: part := by
  cases types with
  | nil => nomatch h
  | cons type types =>
      obtain h | h := List.mem_append.mp h
      · exact ⟨_, List.mem_cons_self, type.tokens_infix_of_mem_walk h⟩
      · obtain ⟨part, hpart, hx⟩ := TypeExpr.tokensEach_infix_of_mem_walk types h
        exact ⟨part, List.mem_cons_of_mem _ hpart, hx⟩
termination_by structural types

end

/-- Whether the expression stands for something the tokenizer could not read. -/
def Expr.isMalformed : Expr α → Bool
  | .malformed _ => true
  | _ => false

/-- An expression without an error token among its tokens was read as a whole. -/
theorem Expr.isMalformed_eq_false_of_mem_walk {e x : Expr α} (htokens : .error ∉ e.tokens)
    (h : x ∈ e.walk) : x.isMalformed = false := by
  have hwithin := e.tokens_infix_of_mem_walk h
  cases x with
  | malformed => exact absurd (hwithin.subset List.mem_cons_self) htokens
  | _ => rfl

/-! ### Parts of grammatical trees -/

section Parts

variable {style : Style}

mutual

/-- Whatever is inside a grammatical tree and not a blank is grammatical. -/
theorem Expr.Grammatical.of_mem_walk (e : Expr α) {x : Expr α} (he : e.Grammatical style)
    (h : x ∈ e.walk) (hx : x.isBlank = false) : x.Grammatical style := by
  obtain rfl | h : x = e ∨ x ∈ e.walk.tail := by
    rw [Expr.walk_eq_cons] at h
    exact List.mem_cons.mp h
  · exact he
  cases e with
  | declare info type id =>
      cases he with
      | declare _ _ _ htype => exact TypeExpr.Grammatical.of_mem_walk type htype h hx
      | declareNamed => nomatch h
  | unknown info type =>
      cases type with
      | none => nomatch h
      | some type =>
          cases he with
          | unknownOf _ _ htype => exact TypeExpr.Grammatical.of_mem_walk type htype h hx
  | call info callee args =>
      cases he with
      | call _ _ hargs =>
          exact Expr.Grammatical.of_mem_walkEach args (fun e hmem _ => hargs e hmem) h hx
  | tuple info items =>
      cases he with
      | tuple _ _ _ hitems => exact Expr.Grammatical.of_mem_walkEach items hitems h hx
  | binary info op left right =>
      cases he with
      | binary _ _ _ _ hleft hright =>
          obtain h | h := List.mem_append.mp h
          · exact Expr.Grammatical.of_mem_walk left hleft h hx
          · exact Expr.Grammatical.of_mem_walk right hright h hx
  | unary info op operand =>
      cases he with
      | unary _ _ _ hoperand => exact Expr.Grammatical.of_mem_walk operand hoperand h hx
  | slice info base terms =>
      cases he with
      | slice _ _ hbase _ _ hbounds =>
          obtain h | h := List.mem_append.mp h
          · exact Expr.Grammatical.of_mem_walk base hbase h hx
          · exact Expr.Grammatical.of_mem_walkTerms terms hbounds h hx
  | index info base terms =>
      cases he with
      | index _ _ hbase _ _ hbounds =>
          obtain h | h := List.mem_append.mp h
          · exact Expr.Grammatical.of_mem_walk base hbase h hx
          · exact Expr.Grammatical.of_mem_walkTerms terms hbounds h hx
  | conditional info test yes no =>
      cases he with
      | conditional _ htest hyes hno =>
          obtain h | h := List.mem_append.mp h
          · obtain h | h := List.mem_append.mp h
            · exact Expr.Grammatical.of_mem_walk test htest h hx
            · exact Expr.Grammatical.of_mem_walk yes hyes h hx
          · exact Expr.Grammatical.of_mem_walk no hno h hx
  | member info base field =>
      cases he with
      | member _ _ _ hbase => exact Expr.Grammatical.of_mem_walk base hbase h hx
  | _ => nomatch h
termination_by structural e

theorem Expr.Grammatical.of_mem_walkEach (es : List (Expr α)) {x : Expr α}
    (hes : ∀ e ∈ es, e.isBlank = false → e.Grammatical style) (h : x ∈ Expr.walkEach es)
    (hx : x.isBlank = false) : x.Grammatical style := by
  cases es with
  | nil => nomatch h
  | cons e es =>
      obtain ⟨he, hes⟩ := List.forall_mem_cons.mp hes
      obtain h | h := List.mem_append.mp h
      · cases hblank : e.isBlank with
        | false => exact Expr.Grammatical.of_mem_walk e (he hblank) h hx
        | true =>
            cases e with
            | blank =>
                obtain rfl := List.mem_singleton.mp h
                nomatch hx
            | _ => nomatch hblank
      · exact Expr.Grammatical.of_mem_walkEach es hes h hx
termination_by structural es

theorem Expr.Grammatical.of_mem_walkTerms (terms : List (SliceTerm (Expr α))) {x : Expr α}
    (hterms : ∀ term ∈ terms, ∀ e ∈ term.bounds, e.Grammatical style)
    (h : x ∈ Expr.walkTerms terms) (hx : x.isBlank = false) : x.Grammatical style := by
  cases terms with
  | nil => nomatch h
  | cons term terms =>
      obtain ⟨hterm, hrest⟩ := List.forall_mem_cons.mp hterms
      cases term with
      | single position =>
          obtain h | h := List.mem_append.mp h
          · exact Expr.Grammatical.of_mem_walk position (hterm _ List.mem_cons_self) h hx
          · exact Expr.Grammatical.of_mem_walkTerms terms hrest h hx
      | range high low =>
          obtain h | h := List.mem_append.mp h
          · obtain h | h := List.mem_append.mp h
            · exact Expr.Grammatical.of_mem_walk high (hterm _ List.mem_cons_self) h hx
            · exact Expr.Grammatical.of_mem_walk low
                (hterm _ (List.mem_cons_of_mem _ List.mem_cons_self)) h hx
          · exact Expr.Grammatical.of_mem_walkTerms terms hrest h hx
termination_by structural terms

theorem TypeExpr.Grammatical.of_mem_walk (type : TypeExpr α) {x : Expr α}
    (htype : type.Grammatical style) (h : x ∈ type.walk) (hx : x.isBlank = false) :
    x.Grammatical style := by
  cases type with
  | bits width =>
      cases htype with
      | bits hwidth => exact Expr.Grammatical.of_mem_walk width hwidth h hx
  | tuple items =>
      cases htype with
      | tuple _ hitems => exact TypeExpr.Grammatical.of_mem_walkEach items hitems h hx
  | _ => nomatch h
termination_by structural type

theorem TypeExpr.Grammatical.of_mem_walkEach (types : List (TypeExpr α)) {x : Expr α}
    (htypes : ∀ type ∈ types, type.Grammatical style) (h : x ∈ TypeExpr.walkEach types)
    (hx : x.isBlank = false) : x.Grammatical style := by
  cases types with
  | nil => nomatch h
  | cons type types =>
      obtain ⟨htype, htypes⟩ := List.forall_mem_cons.mp htypes
      obtain h | h := List.mem_append.mp h
      · exact TypeExpr.Grammatical.of_mem_walk type htype h hx
      · exact TypeExpr.Grammatical.of_mem_walkEach types htypes h hx
termination_by structural types

end

/-- In a grammatical tree the operands of every operator are as tight as their places require. -/
theorem Expr.Grammatical.levels_of_mem_walk {e left right : Expr α} {info : α} {op : BinaryOp}
    (he : e.Grammatical style) (h : .binary info op left right ∈ e.walk) :
    left.level ≤ op.precedence ∧ right.level < op.precedence := by
  cases Expr.Grammatical.of_mem_walk e he h rfl with
  | binary _ _ hleft hright =>
      have hpos := op.precedence_pos
      have hle := hright.level_le
      exact ⟨hleft.level_le, by omega⟩

/-- Whether the expression is a pair of parentheses around nothing. -/
def Expr.isEmptyTuple : Expr α → Bool
  | .tuple _ [] => true
  | _ => false

/-- No tuple in the expression is empty. -/
def Expr.Filled (e : Expr α) : Prop :=
  ∀ part ∈ e.walk, part.isEmptyTuple = false

theorem Expr.Grammatical.filled {e : Expr α} (he : e.Grammatical style) : e.Filled := by
  intro part h
  cases part with
  | tuple info items =>
      cases Expr.Grammatical.of_mem_walk e he h rfl with
      | tuple _ hsome =>
          cases items with
          | nil => exact absurd rfl hsome
          | cons item items => rfl
  | _ => rfl

end Parts

end ArmPseudocode
